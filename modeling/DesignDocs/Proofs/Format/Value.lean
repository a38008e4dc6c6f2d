import DesignDocs.Proofs.Json.Described
import DesignDocs.Proofs.Wire

namespace DesignDocs

open Json (Format Reader Steady decode)

namespace Wire

variable {α : Type} [Wire α] {F : Format} {v : Value} {a : α}

theorem ofValue_eq_ok_iff (h : Steady (read : Reader α)) :
    ofValue v = .ok a ↔ decode read v.json = .ok a := by
  rw [ofValue_eq, Except.mapError_eq_ok_iff, h.ok_iff]

theorem exists_ofValue_error (h : Steady (read : Reader α)) {f : Json.Fault}
    (hf : decode (read : Reader α) v.json = .error f) :
    ∃ e, (ofValue v : Except DesignError α) = .error e ∧ e.kind = f.kind := by
  obtain ⟨g, hg, hkind⟩ := h.exists_error hf
  refine ⟨.ofFault g, ?_, (DesignError.kind_ofFault g).trans hkind⟩
  rw [ofValue_eq, hg, Except.mapError_error]

variable (hF : F.Describes (read : Reader α) toJson) (hs : Steady (read : Reader α))

include hF hs

theorem exists_ofValue_iff : (∃ a : α, ofValue v = .ok a) ↔ F.Accepts v.json := by
  simp only [ofValue_eq_ok_iff hs]
  exact hF.exists_ok_iff v.distinct

theorem accepts_of_ofValue (h : ofValue v = .ok a) : F.Accepts v.json :=
  (hF.of_ok v.distinct ((ofValue_eq_ok_iff hs).1 h)).1

theorem toJson_of_ofValue (h : ofValue v = .ok a) : toJson a = F.normal v.json :=
  (hF.of_ok v.distinct ((ofValue_eq_ok_iff hs).1 h)).2

end Wire

end DesignDocs
