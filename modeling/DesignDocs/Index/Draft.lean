import DesignDocs.Index.Validity
import DesignDocs.Selector.Parse

namespace DesignDocs

/-- What the builders of all index types share: the first error, the names, and the body. -/
structure IndexDraft (β : Type) where
  error : Option DesignError
  designDocument : Option String
  name : Option String
  body : β

namespace IndexDraft

variable {β : Type}

def start (body : β) : IndexDraft β := ⟨none, none, none, body⟩

def change (d : IndexDraft β) (f : β → β) : IndexDraft β := { d with body := f d.body }

/-- Uses the result of parsing a text, unless an earlier step has failed. -/
def tryParsed {α : Type} (d : IndexDraft β) (parsed : Except DesignError α) (f : α → β → β) :
    IndexDraft β :=
  match d.error with
  | some _ => d
  | none =>
    match parsed with
    | .ok a => d.change (f a)
    | .error e => { d with error := some e }

def finish (d : IndexDraft β) (toBody : β → IndexBody) : Except DesignError QueryIndex :=
  match d.error with
  | some e => .error e
  | none => do
    let index := QueryIndex.new d.designDocument d.name (toBody d.body)
    index.validate
    return index

end IndexDraft

inductive JsonIndexStep
  | name (s : String)
  | designDocument (s : String)
  | filter (s : Selector)
  | filterText (s : String)
  | ascending (names : List String)
  | descending (names : List String)
  | field (f : JsonField)
  | fieldSpec (s : String)

namespace JsonIndexStep

def addFields (fields : List JsonField) (b : JsonBody) : JsonBody :=
  { b with fields := b.fields ++ fields }

def setFilter (s : Selector) (b : JsonBody) : JsonBody := { b with partialFilter := some s }

def apply (d : IndexDraft JsonBody) : JsonIndexStep → IndexDraft JsonBody
  | name s => { d with name := some s }
  | designDocument s => { d with designDocument := some s }
  | filter s => d.change (setFilter s)
  | filterText s => d.tryParsed (Selector.parseKeyed Selector.filterKey s) setFilter
  | ascending names => d.change (addFields (names.map .ascending))
  | descending names => d.change (addFields (names.map .descending))
  | field f => d.change (addFields [f])
  | fieldSpec s => d.tryParsed (JsonField.parse s) fun f ↦ addFields [f]

end JsonIndexStep

inductive TextIndexStep
  | name (s : String)
  | designDocument (s : String)
  | filter (s : Selector)
  | filterText (s : String)
  | typed (type : TextFieldType) (names : List String)
  | field (f : TextField)
  | fieldSpec (s : String)
  | analyzer (a : Analyzer)
  | defaultField (d : DefaultField)
  | indexArrayLengths (b : Bool)

namespace TextIndexStep

/-- From the first field step on the body lists its fields. -/
def addFields (fields : List TextField) (b : TextBody) : TextBody :=
  { b with fields := some (b.fields.getD [] ++ fields) }

def setFilter (s : Selector) (b : TextBody) : TextBody := { b with partialFilter := some s }

def apply (d : IndexDraft TextBody) : TextIndexStep → IndexDraft TextBody
  | name s => { d with name := some s }
  | designDocument s => { d with designDocument := some s }
  | filter s => d.change (setFilter s)
  | filterText s => d.tryParsed (Selector.parseKeyed Selector.filterKey s) setFilter
  | typed type names => d.change (addFields (names.map (⟨·, type⟩)))
  | field f => d.change (addFields [f])
  | fieldSpec s => d.tryParsed (TextField.parse s) fun f ↦ addFields [f]
  | analyzer a => d.change fun b ↦ { b with defaultAnalyzer := some a }
  | defaultField f => d.change fun b ↦ { b with defaultField := some f }
  | indexArrayLengths v => d.change fun b ↦ { b with indexArrayLengths := some v }

end TextIndexStep

namespace QueryIndex

def buildJson (steps : List JsonIndexStep) : Except DesignError QueryIndex :=
  (steps.foldl JsonIndexStep.apply (.start (.new []))).finish .json

def buildText (steps : List TextIndexStep) : Except DesignError QueryIndex :=
  (steps.foldl TextIndexStep.apply (.start .unset)).finish .text

end QueryIndex

end DesignDocs
