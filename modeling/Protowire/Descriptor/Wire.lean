import Protowire.Descriptor.Exchange
import Protowire.Message.Encode
import Protowire.Message.Merge

/-!
# Descriptor/Wire — descriptors and exchanges as messages

Each descriptor type has the message it travels as (`toMessage`) and is read back from that message
(`ofMessage`).  Nothing is lost on the way: every slot of the message is a component of the
descriptor.
-/

namespace Protowire

namespace Items

variable {α : Type}

/-- A list of texts as values of a field. -/
def ofStrings (texts : List String) : Items (.scalar .string) :=
  ofList (texts.map fun text => .scalar (s := .string) text)

/-- The texts among the values of a field. -/
def toStrings (vs : Items (.scalar .string)) : List String :=
  vs.toList.map Item.scalarValue

/-- A list of descriptors as values of a field. -/
def ofMessages {t : MessageType} (toMessage : α → Message t) (as : List α) : Items (.message t) :=
  ofList (as.map fun a => .message (toMessage a))

/-- The descriptors among the values of a field. -/
def toMessages {t : MessageType} (ofMessage : Message t → α) (vs : Items (.message t)) : List α :=
  vs.toList.map fun v => ofMessage v.record

end Items

namespace Content

variable {α : Type} {name : String} {number : Nat}

/-- A value that may be absent. -/
def ofOption {e : Element} : Option (Item e) → Content (.field name number (.optional e))
  | none => .absent
  | some v => .present v

/-- The value, if present. -/
def toOption {e : Element} : Content (.field name number (.optional e)) → Option (Item e)
  | .absent => none
  | .present v => some v

end Content

namespace FieldOptions

/-- The options as a message. -/
def toMessage (o : FieldOptions) : Message .fieldOptions :=
  .cons (.ofOption (o.packed.map fun v => .scalar (s := .bool) v)) .nil

/-- The options a message holds. -/
def ofMessage : Message .fieldOptions → FieldOptions
  | .cons packed .nil => ⟨packed.toOption.map Item.scalarValue⟩

end FieldOptions

namespace FieldDescriptor

/-- The field as a message. -/
def toMessage (f : FieldDescriptor) : Message .fieldDescriptor :=
  .cons (.plain f.name) <|
  .cons (.plain f.number) <|
  .cons (.plain f.label) <|
  .cons (.plain f.typeCode) <|
  .cons (.plain f.typeName) <|
  .cons (.ofOption (f.options.map fun o => .message o.toMessage)) <|
  .cons (.ofOption (f.oneofIndex.map fun v => .scalar (s := .int32) v)) <|
  .cons (.plain f.jsonName) <|
  .cons (.plain f.tracksPresence) .nil

/-- The field a message holds. -/
def ofMessage : Message .fieldDescriptor → FieldDescriptor
  | .cons (.plain name) (.cons (.plain number) (.cons (.plain label) (.cons (.plain typeCode)
      (.cons (.plain typeName) (.cons options (.cons oneofIndex (.cons (.plain jsonName)
      (.cons (.plain tracksPresence) .nil)))))))) =>
    { name, number, label, typeCode, typeName
      options := options.toOption.map fun v => FieldOptions.ofMessage v.record
      oneofIndex := oneofIndex.toOption.map Item.scalarValue
      jsonName, tracksPresence }

end FieldDescriptor

namespace OneofDescriptor

/-- The oneof as a message. -/
def toMessage (o : OneofDescriptor) : Message .oneofDescriptor :=
  .cons (.plain o.name) .nil

/-- The oneof a message holds. -/
def ofMessage : Message .oneofDescriptor → OneofDescriptor
  | .cons (.plain name) .nil => ⟨name⟩

end OneofDescriptor

namespace EnumValueDescriptor

/-- The value as a message. -/
def toMessage (v : EnumValueDescriptor) : Message .enumValueDescriptor :=
  .cons (.plain v.name) <| .cons (.plain v.number) .nil

/-- The value a message holds. -/
def ofMessage : Message .enumValueDescriptor → EnumValueDescriptor
  | .cons (.plain name) (.cons (.plain number) .nil) => ⟨name, number⟩

end EnumValueDescriptor

namespace EnumDescriptor

/-- The enum as a message. -/
def toMessage (e : EnumDescriptor) : Message .enumDescriptor :=
  .cons (.plain e.name) <|
  .cons (.repeated (.ofMessages EnumValueDescriptor.toMessage e.values)) .nil

/-- The enum a message holds. -/
def ofMessage : Message .enumDescriptor → EnumDescriptor
  | .cons (.plain name) (.cons (.repeated values) .nil) =>
    ⟨name, values.toMessages EnumValueDescriptor.ofMessage⟩

end EnumDescriptor

namespace MessageOptions

/-- The options as a message. -/
def toMessage (o : MessageOptions) : Message .messageOptions :=
  .cons (.ofOption (o.mapEntry.map fun v => .scalar (s := .bool) v)) .nil

/-- The options a message holds. -/
def ofMessage : Message .messageOptions → MessageOptions
  | .cons mapEntry .nil => ⟨mapEntry.toOption.map Item.scalarValue⟩

end MessageOptions

namespace MessageDescriptor

mutual

/-- The message descriptor as a message. -/
def toMessage : MessageDescriptor → Message .messageDescriptor
  | ⟨name, fields, messages, enums, options, oneofs⟩ =>
    .cons (.plain name) <|
    .cons (.repeated (.ofMessages FieldDescriptor.toMessage fields)) <|
    .cons (.repeated (toItems messages)) <|
    .cons (.repeated (.ofMessages EnumDescriptor.toMessage enums)) <|
    .cons (.ofOption (options.map fun o => .message o.toMessage)) <|
    .cons (.repeated (.ofMessages OneofDescriptor.toMessage oneofs)) .nil

/-- A list of message descriptors as values of a field. -/
def toItems : List MessageDescriptor → Items (.message .messageDescriptor)
  | [] => .nil
  | m :: ms => .cons (.message (toMessage m)) (toItems ms)

end

mutual

/-- The message descriptor a message holds. -/
def ofMessage : Message .messageDescriptor → MessageDescriptor
  | .cons (.plain name) (.cons (.repeated fields) (.cons (.repeated messages)
      (.cons (.repeated enums) (.cons options (.cons (.repeated oneofs) .nil))))) =>
    { name
      fields := fields.toMessages FieldDescriptor.ofMessage
      messages := ofItems messages
      enums := enums.toMessages EnumDescriptor.ofMessage
      options := options.toOption.map fun v => MessageOptions.ofMessage v.record
      oneofs := oneofs.toMessages OneofDescriptor.ofMessage }
termination_by m => sizeOf m

/-- The message descriptors among the values of a field. -/
def ofItems : Items (.message .messageDescriptor) → List MessageDescriptor
  | .nil => []
  | .cons (.message m) rest => ofMessage m :: ofItems rest
termination_by vs => sizeOf vs

end

end MessageDescriptor

namespace FileDescriptor

/-- The file as a message. -/
def toMessage (f : FileDescriptor) : Message .fileDescriptor :=
  .cons (.plain f.name) <|
  .cons (.plain f.package) <|
  .cons (.repeated (.ofStrings f.imports)) <|
  .cons (.repeated (.ofMessages MessageDescriptor.toMessage f.messages)) <|
  .cons (.repeated (.ofMessages EnumDescriptor.toMessage f.enums)) <|
  .cons (.plain f.dialect) .nil

/-- The file a message holds. -/
def ofMessage : Message .fileDescriptor → FileDescriptor
  | .cons (.plain name) (.cons (.plain package) (.cons (.repeated imports)
      (.cons (.repeated messages) (.cons (.repeated enums) (.cons (.plain dialect) .nil))))) =>
    { name, package
      imports := imports.toStrings
      messages := messages.toMessages MessageDescriptor.ofMessage
      enums := enums.toMessages EnumDescriptor.ofMessage
      dialect }

end FileDescriptor

namespace FileDescriptorSet

/-- The file set as a message. -/
def toMessage (s : FileDescriptorSet) : Message .fileDescriptorSet :=
  .cons (.repeated (.ofMessages FileDescriptor.toMessage s.files)) .nil

/-- The file set a message holds. -/
def ofMessage : Message .fileDescriptorSet → FileDescriptorSet
  | .cons (.repeated files) .nil => ⟨files.toMessages FileDescriptor.ofMessage⟩

end FileDescriptorSet

namespace Version

/-- The version as a message. -/
def toMessage (v : Version) : Message .version :=
  .cons (.plain v.major) <|
  .cons (.plain v.minor) <|
  .cons (.plain v.patch) <|
  .cons (.plain v.suffix) .nil

/-- The version a message holds. -/
def ofMessage : Message .version → Version
  | .cons (.plain major) (.cons (.plain minor) (.cons (.plain patch)
      (.cons (.plain suffix) .nil))) =>
    ⟨major, minor, patch, suffix⟩

end Version

namespace GeneratorRequest

/-- The request as a message. -/
def toMessage (r : GeneratorRequest) : Message .generatorRequest :=
  .cons (.repeated (.ofStrings r.targets)) <|
  .cons (.plain r.parameter) <|
  .cons (.ofOption (r.compilerVersion.map fun v => .message v.toMessage)) <|
  .cons (.repeated (.ofMessages FileDescriptor.toMessage r.files)) .nil

/-- The request a message holds. -/
def ofMessage : Message .generatorRequest → GeneratorRequest
  | .cons (.repeated targets) (.cons (.plain parameter) (.cons compilerVersion
      (.cons (.repeated files) .nil))) =>
    { targets := targets.toStrings
      parameter
      compilerVersion := compilerVersion.toOption.map fun v => Version.ofMessage v.record
      files := files.toMessages FileDescriptor.ofMessage }

end GeneratorRequest

namespace ResponseFile

/-- The file as a message. -/
def toMessage (f : ResponseFile) : Message .responseFile :=
  .cons (.plain f.name) <|
  .cons (.plain f.insertionPoint) <|
  .cons (.plain f.content) .nil

/-- The file a message holds. -/
def ofMessage : Message .responseFile → ResponseFile
  | .cons (.plain name) (.cons (.plain insertionPoint) (.cons (.plain content) .nil)) =>
    ⟨name, insertionPoint, content⟩

end ResponseFile

namespace GeneratorResponse

/-- The response as a message. -/
def toMessage (r : GeneratorResponse) : Message .generatorResponse :=
  .cons (.ofOption (r.error.map fun v => .scalar (s := .string) v)) <|
  .cons (.plain r.supportedFeatures) <|
  .cons (.repeated (.ofMessages ResponseFile.toMessage r.files)) .nil

/-- The response a message holds. -/
def ofMessage : Message .generatorResponse → GeneratorResponse
  | .cons error (.cons (.plain supportedFeatures) (.cons (.repeated files) .nil)) =>
    { error := error.toOption.map Item.scalarValue
      supportedFeatures
      files := files.toMessages ResponseFile.ofMessage }

end GeneratorResponse

end Protowire
