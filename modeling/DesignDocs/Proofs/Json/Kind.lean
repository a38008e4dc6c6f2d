import DesignDocs.Json.Fault

namespace DesignDocs

namespace ErrorKind

/-- No label that travels begins as the message does. -/
def Unlabelled (message : String) : Prop :=
  ∃ c, message.toList.head? = some c ∧ c ∉ ['U', 'I', 'D', 'V']

theorem Unlabelled.append {s : String} (h : Unlabelled s) (t : String) : Unlabelled (s ++ t) := by
  obtain ⟨c, hc, hn⟩ := h
  refine ⟨c, ?_, hn⟩
  rw [String.toList_append, List.head?_append, hc]
  rfl

theorem head?_label_mem {kind : ErrorKind} (h : kind ∈ travelling) :
    ∃ c cs, kind.label.toList = c :: cs ∧ c ∈ ['U', 'I', 'D', 'V'] := by
  simp only [travelling, List.mem_cons, List.not_mem_nil, or_false] at h
  rcases h with rfl | rfl | rfl | rfl | rfl <;> exact ⟨_, _, rfl, by decide⟩

theorem ofMessage_of_unlabelled {message : String} (h : Unlabelled message) :
    ofMessage message = .malformedJson := by
  obtain ⟨c, hc, hn⟩ := h
  obtain ⟨cs, hcs⟩ := List.head?_eq_some_iff.1 hc
  have hlabels : ∀ kind ∈ travelling, ¬ labels kind message := by
    intro kind hkind hl
    obtain ⟨d, ds, hlabel, hd⟩ := head?_label_mem hkind
    have hprefix : d :: (ds ++ [':']) <+: c :: cs := by
      simpa [labels, hlabel, hcs] using hl
    rw [(List.cons_prefix_cons.1 hprefix).1] at hd
    exact hn hd
  rw [ofMessage, ofMessage?, List.find?_eq_none.2 hlabels]
  rfl

/-- A message carries the label that was written to it and no other. -/
theorem labels_labelled_iff {kind other : ErrorKind} (hk : kind ∈ travelling)
    (ho : other ∈ travelling) (message : String) :
    labels kind (Json.Fault.labelled other message) ↔ kind = other := by
  have htext : (Json.Fault.labelled other message).toList =
      other.label.toList ++ (':' :: ' ' :: message.toList) := by
    simp [Json.Fault.labelled, String.toList_append, toString]
  simp only [travelling, List.mem_cons, List.not_mem_nil, or_false] at hk ho
  rw [labels, htext]
  rcases hk with rfl | rfl | rfl | rfl | rfl <;>
    rcases ho with rfl | rfl | rfl | rfl | rfl <;> simp [label]

theorem ofMessage_labelled {kind : ErrorKind} (h : kind ∈ travelling) (message : String) :
    ofMessage (Json.Fault.labelled kind message) = kind := by
  have hfind : ofMessage? (Json.Fault.labelled kind message) = some kind := by
    rw [ofMessage?]
    cases hf : travelling.find? (labels · (Json.Fault.labelled kind message)) with
    | none =>
      exact absurd ((labels_labelled_iff h h message).2 rfl) (List.find?_eq_none.1 hf kind h)
    | some other =>
      have hl : labels other (Json.Fault.labelled kind message) :=
        List.find?_some (p := (labels · (Json.Fault.labelled kind message))) hf
      rw [(labels_labelled_iff (List.mem_of_find?_eq_some hf) h message).1 hl]
  rw [ofMessage, hfind]
  rfl

end ErrorKind

namespace Json

open ErrorKind (Unlabelled ofMessage_of_unlabelled ofMessage_labelled travelling)

theorem FormFault.unlabelled_message (f : FormFault) : Unlabelled f.message := by
  cases f <;> exact ⟨_, rfl, by decide⟩

namespace Fault

/-- The message shows the kind that was written to it, or none. -/
theorem labelled_or_unlabelled (f : Fault) :
    (∃ m, f.message = labelled f.kind m ∧ f.kind ∈ travelling) ∨
      Unlabelled f.message ∧ f.kind = .malformedJson := by
  induction f <;> rw [message.eq_def]
  case form f => exact .inr ⟨f.unlabelled_message, rfl⟩
  case mismatch found expected =>
    exact .inr ⟨((Unlabelled.append ⟨'i', rfl, by decide⟩ _).append _).append _, rfl⟩
  case negative value =>
    exact .inr ⟨(Unlabelled.append ⟨'i', rfl, by decide⟩ _).append _, rfl⟩
  case severalVariants => exact .inr ⟨⟨'i', rfl, by decide⟩, rfl⟩
  case unknownVariant name expected =>
    exact .inr ⟨((Unlabelled.append ⟨'u', rfl, by decide⟩ _).append _).append _, rfl⟩
  case noVariant union => exact .inr ⟨Unlabelled.append ⟨'d', rfl, by decide⟩ _, rfl⟩
  case missing name =>
    exact .inr ⟨(Unlabelled.append ⟨'m', rfl, by decide⟩ _).append _, rfl⟩
  case repeated name =>
    exact .inr ⟨(Unlabelled.append ⟨'d', rfl, by decide⟩ _).append _, rfl⟩
  case shortRecord index record members =>
    exact .inr ⟨(((((Unlabelled.append ⟨'i', rfl, by decide⟩ _).append _).append _).append
      _).append _).append _, rfl⟩
  case surplusItems count =>
    exact .inr ⟨(Unlabelled.append ⟨'i', rfl, by decide⟩ _).append _, rfl⟩
  case nameRepeated name => exact .inl ⟨_, rfl, by simp [kind, travelling]⟩
  case keyRepeated key => exact .inl ⟨_, rfl, by simp [kind, travelling]⟩
  case unknownIndexType name => exact .inl ⟨_, rfl, by simp [kind, travelling]⟩
  case fieldShape f => exact .inl ⟨_, rfl, by simp [kind, travelling]⟩
  case definitionNotObject => exact .inr ⟨⟨'i', rfl, by decide⟩, rfl⟩
  case inDefinition f ih => exact ih

theorem exists_labelled (f : Fault) (h : f.kind ≠ .malformedJson) :
    ∃ m, f.message = labelled f.kind m := by
  obtain ⟨m, hm, -⟩ | ⟨-, hk⟩ := f.labelled_or_unlabelled
  · exact ⟨m, hm⟩
  · exact absurd hk h

theorem ofMessage_message (f : Fault) : ErrorKind.ofMessage f.message = f.kind := by
  obtain ⟨m, hm, hk⟩ | ⟨hm, hk⟩ := f.labelled_or_unlabelled
  · rw [hm, ofMessage_labelled hk]
  · rw [ofMessage_of_unlabelled hm, hk]

theorem apparentKind_eq_kind (f : Fault) : f.apparentKind = f.kind := by
  cases f with
  | form f => rfl
  | _ => exact ofMessage_message _

end Fault

end Json

end DesignDocs
