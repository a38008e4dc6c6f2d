import DesignDocs.Proofs.Document.Basic
import DesignDocs.Proofs.Index.Basic
import DesignDocs.Proofs.Wire
import DesignDocs.Selector.Parse

namespace DesignDocs

open Json (Reader Fault RaisesOnly Confined Spells)
open Text (Symbol)

/-- What descriptors are read from. -/
inductive Input
  | text (t : String)
  | bytes (b : ByteArray)
  | value (v : Value)

namespace Input

variable {α : Type}

def descriptor (α : Type) [Wire α] : Input → Except DesignError α
  | text t => Wire.ofText t
  | bytes b => Wire.ofBytes b
  | value v => Wire.ofValue v

def run (read : Reader α) : Input → Except Fault α
  | text t => read.symbols (Symbol.ofString t)
  | bytes b => read.symbols (Symbol.ofBytes b)
  | value v => read (.ofJson v.json)

theorem descriptor_eq [Wire α] (i : Input) :
    i.descriptor α = (i.run Wire.read).mapError .ofFault := by
  cases i <;> rfl

theorem raisesOnly_run {kinds : List ErrorKind} {read : Reader α} (h : Confined kinds read)
    (i : Input) : RaisesOnly kinds (i.run read) := by
  cases i with
  | text t => exact Reader.raisesOnly_symbols h _
  | bytes b => exact Reader.raisesOnly_symbols h _
  | value v => exact h _ (Json.Source.plain_ofJson v.json)

variable [Wire α] {i : Input} {e : DesignError}

theorem exists_run_eq_error (h : i.descriptor α = .error e) :
    ∃ f, i.run (Wire.read : Reader α) = .error f ∧ e.message = f.message ∧ e.kind = f.kind := by
  rw [descriptor_eq] at h
  cases hr : i.run (Wire.read : Reader α) with
  | error f =>
    rw [hr] at h
    cases h
    exact ⟨f, rfl, rfl, DesignError.kind_ofFault f⟩
  | ok a =>
    rw [hr] at h
    cases h

theorem kind_mem_of_confined {kinds : List ErrorKind} (hc : Confined kinds (Wire.read (α := α)))
    (h : i.descriptor α = .error e) : e.kind ∈ .malformedJson :: kinds := by
  obtain ⟨f, hf, -, hk⟩ := exists_run_eq_error h
  rw [hk]
  exact raisesOnly_run hc i f hf

end Input

theorem Selector.kind_eq_of_parseKeyed {key text : String} {e : DesignError}
    (h : parseKeyed key text = .error e) : e.kind = .invalidSelector := by
  rw [parseKeyed] at h
  split at h
  · cases h
  · next f hf =>
    cases h
    cases f <;> rfl

/-- The error of a reading has the kind of the fault at which the reader stopped, and no
descriptor meets faults of other kinds than its own. -/
theorem errorKind_eq_raised (i : Input) :
    (∀ (α : Type) [Wire α] (e : DesignError), i.descriptor α = .error e →
      ∃ f, i.run (Wire.read : Reader α) = .error f ∧ e.message = f.message ∧ e.kind = f.kind) ∧
    (∀ f : Fault, f.apparentKind = f.kind ∧ (Fault.inDefinition f).apparentKind = f.kind) ∧
    (∀ f : Fault, f.kind ≠ .malformedJson → ∃ m, f.message = Fault.labelled f.kind m) ∧
    (∀ kind ∈ ErrorKind.travelling, ∀ m, ErrorKind.ofMessage (Fault.labelled kind m) = kind) ∧
    (∀ e, i.descriptor DesignDocument = .error e → e.kind ∈ [.malformedJson, .duplicateName]) ∧
    (∀ e, i.descriptor QueryIndex = .error e →
      e.kind ∈ [.malformedJson, .duplicateName, .unknownIndexType, .invalidFieldShape]) ∧
    (∀ e, i.descriptor IndexListing = .error e →
      e.kind ∈ [.malformedJson, .duplicateName, .unknownIndexType, .invalidFieldShape]) ∧
    (∀ e, i.descriptor Selector = .error e → e.kind = .malformedJson) ∧
    (∀ key text e, Selector.parseKeyed key text = .error e → e.kind = .invalidSelector) ∧
    ∀ text e, Selector.parse text = .error e → e.kind = .invalidSelector := by
  refine ⟨fun α _ e ↦ Input.exists_run_eq_error, ?_, ?_, ?_, ?_, ?_, ?_, ?_, ?_, ?_⟩
  · exact fun f ↦ ⟨f.apparentKind_eq_kind, (Fault.inDefinition f).apparentKind_eq_kind⟩
  · exact fun f ↦ f.exists_labelled
  · exact fun kind hk m ↦ ErrorKind.ofMessage_labelled hk m
  · exact fun e ↦ Input.kind_mem_of_confined (DesignDocument.confined_read (by decide))
  · exact fun e ↦ Input.kind_mem_of_confined
      (QueryIndex.confined_read (by decide) (by decide) (by decide))
  · exact fun e ↦ Input.kind_mem_of_confined
      (IndexListing.confined_read (by decide) (by decide) (by decide))
  · intro e h
    have hc : Confined [] (Wire.read (α := Selector)) := Selector.confined_read
    exact List.mem_singleton.1 (Input.kind_mem_of_confined hc h)
  · exact fun key text e ↦ Selector.kind_eq_of_parseKeyed
  · exact fun text e ↦ Selector.kind_eq_of_parseKeyed

def mislabelled : Value := .object (.singleton "type" (.string "Duplicate name: type"))

theorem errorKind_eq_raised_mislabelled :
    ∃ e, (Input.text mislabelled.json.render).descriptor QueryIndex = .error e ∧
      e.kind = .unknownIndexType := by
  have hs : Spells (Symbol.ofString mislabelled.json.render) mislabelled.json :=
    Json.spells_render (by decide) (by decide)
  have hrun : (Input.text mislabelled.json.render).run (Wire.read : Reader QueryIndex) =
      .error (.unknownIndexType "Duplicate name: type") :=
    Json.symbols_of_spells _ hs
  have herror := Input.descriptor_eq (α := QueryIndex) (.text mislabelled.json.render)
  rw [hrun] at herror
  obtain ⟨f, hf, -, hk⟩ := (errorKind_eq_raised _).1 QueryIndex _ herror
  rw [hrun] at hf
  cases hf
  exact ⟨_, herror, hk⟩

end DesignDocs
