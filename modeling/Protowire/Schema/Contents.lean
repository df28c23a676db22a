import Protowire.Schema.Declaration

/-!
# Schema/Contents — what stands in a file or a message, by number

Messages and enums are numbered in the order they are declared: a message before the messages nested
in it, and its enums after those of the messages nested in it.  The numbers of what stands in one
place are known by **counting** what is declared in front of it, from the first number of a message
and the first number of an enum on.
-/

namespace Protowire

namespace MessageDescriptor

mutual

/-- How many enums stand in a message and in those inside it. -/
def enumCount : MessageDescriptor → Nat
  | ⟨_, _, messages, enums, _, _⟩ => enumCountAll messages + enums.length

/-- How many enums stand in messages and in those inside them. -/
def enumCountAll : List MessageDescriptor → Nat
  | [] => 0
  | m :: ms => enumCount m + enumCountAll ms

end

end MessageDescriptor

namespace Schema

/-- The numbers of messages that stand in one place, when `id` is the first. -/
def messageIds (id : MessageId) : List MessageDescriptor → List MessageId
  | [] => []
  | m :: ms => id :: messageIds (id + m.count) ms

/-- The numbers of the messages and enums that stand in one place, when `id` is the first of a
message and `enum` that of an enum. -/
def contentsAt (id : MessageId) (enum : EnumId) (messages : List MessageDescriptor)
    (enums : List EnumDescriptor) : Contents :=
  ⟨messageIds id messages,
    List.range' (enum + MessageDescriptor.enumCountAll messages) enums.length⟩

mutual

/-- What stands in a message with the number `id` and in each of those inside it, when `enum` is the
first number of an enum there. -/
def nestedContents (id : MessageId) (enum : EnumId) : MessageDescriptor → List Contents
  | ⟨_, _, messages, enums, _, _⟩ =>
    contentsAt (id + 1) enum messages enums :: nestedContentsAll (id + 1) enum messages

/-- What stands in each of the messages from the number `id` on. -/
def nestedContentsAll (id : MessageId) (enum : EnumId) : List MessageDescriptor → List Contents
  | [] => []
  | m :: ms =>
    nestedContents id enum m ++ nestedContentsAll (id + m.count) (enum + m.enumCount) ms

end

/-- What stands at the top of each file, and in each of the messages from the number `id` on. -/
def contentsFrom (id : MessageId) (enum : EnumId) :
    List FileDescriptor → List Contents × List Contents
  | [] => ([], [])
  | f :: fs =>
    let (tops, nested) := contentsFrom (id + MessageDescriptor.countAll f.messages)
      (enum + MessageDescriptor.enumCountAll f.messages + f.enums.length) fs
    (contentsAt id enum f.messages f.enums :: tops, nestedContentsAll id enum f.messages ++ nested)

/-- What stands at the top of each file. -/
def fileContents (files : List FileDescriptor) : List Contents :=
  (contentsFrom 0 0 files).1

/-- What stands in each message that the files declare. -/
def messageContents (files : List FileDescriptor) : List Contents :=
  (contentsFrom 0 0 files).2

end Schema

end Protowire
