import Protowire.Message.Record

/-!
# Sample/Corpus — the enum of the sample message `foo`

A field of enum type holds a number, and any number may arrive.  `Corpus.ofFoo` reads the field as
a `Corpus`, with the default in place of a number that names none.
-/

namespace Protowire

/-- A collection of documents. -/
inductive Corpus where
  | universal
  | web
  | news
  deriving DecidableEq, Repr

namespace Corpus

/-- Every value. -/
def all : List Corpus := [universal, web, news]

/-- The number that stands for the value on the wire. -/
def number : Corpus → Int32
  | universal => 0
  | web => 1
  | news => 2

/-- The name of the value in the schema. -/
def name : Corpus → String
  | universal => "CORPUS_UNIVERSAL"
  | web => "CORPUS_WEB"
  | news => "CORPUS_NEWS"

/-- The value with the given number. -/
def ofNumber? (number : Int32) : Option Corpus := all.find? fun c => c.number == number

/-- The value with the given name. -/
def ofName? (name : String) : Option Corpus := all.find? fun c => c.name == name

/-- The corpus a sample message names, or the default if its number names none. -/
def ofFoo : Message .foo → Corpus
  | .cons _ (.cons _ (.cons _ (.cons _ (.cons _ (.cons _ (.cons _ (.cons _ (.cons _ (.cons _
      (.cons _ (.cons _ (.cons (.plain m) _)))))))))))) => (ofNumber? m).getD universal

end Corpus

end Protowire
