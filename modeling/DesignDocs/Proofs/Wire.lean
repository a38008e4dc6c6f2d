import DesignDocs.Proofs.Json.Codec
import DesignDocs.Proofs.Json.Kind
import DesignDocs.Proofs.Json.Spelling
import DesignDocs.Wire

namespace DesignDocs

theorem DesignError.kind_ofFault (f : Json.Fault) : (ofFault f).kind = f.kind :=
  f.apparentKind_eq_kind

theorem DesignError.message_ofFault (f : Json.Fault) : (ofFault f).message = f.message := rfl

namespace Wire

open Json (Reads Spells Source depthLimit)
open Text (Symbol)

variable {α : Type} [Wire α]

theorem ofSymbols_of_spells {cs : List Symbol} {v : Json} (h : Spells cs v) :
    (ofSymbols cs : Except DesignError α) =
      (read (.ofTree Source.trailing v)).mapError .ofFault := by
  rw [ofSymbols, Json.symbols_of_spells read h]

theorem ofValue_eq (v : Value) :
    (ofValue v : Except DesignError α) =
      (read (.ofTree .surplusItems v.json)).mapError .ofFault := by
  rw [ofValue, Source.ofJson_eq_ofTree]

variable {a : α}

theorem ofText_of_spells {s : String} (h : Spells (Symbol.ofString s) (toJson a))
    (hr : Reads read (toJson a) a) : ofText s = .ok a := by
  rw [ofText, ofSymbols_of_spells h, hr Source.trailing]
  rfl

theorem ofText_toText (hr : Reads read (toJson a) a) (hi : (toJson a).Integral)
    (hd : (toJson a).depth ≤ depthLimit) : ofText (toText a) = .ok a :=
  ofText_of_spells (Json.spells_render hi hd) hr

theorem ofText_toPrettyText (hr : Reads read (toJson a) a) (hi : (toJson a).Integral)
    (hd : (toJson a).depth ≤ depthLimit) : ofText (toPrettyText a) = .ok a :=
  ofText_of_spells (Json.spells_renderPretty hi hd) hr

theorem toValue_json (hd : (toJson a).Distinct) : (toValue a).json = toJson a :=
  Json.merge_of_distinct hd

theorem ofValue_toValue (hr : Reads read (toJson a) a) (hd : (toJson a).Distinct) :
    ofValue (toValue a) = .ok a := by
  rw [ofValue_eq, toValue_json hd, hr .surplusItems]
  rfl

end Wire

end DesignDocs
