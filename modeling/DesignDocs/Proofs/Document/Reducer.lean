import DesignDocs.Proofs.Document.View
import DesignDocs.Proofs.Text.Trim
import DesignDocs.Proofs.Wire

namespace DesignDocs

namespace BuiltinReducer

variable {b c : BuiltinReducer} {text : String}

theorem ofKeyword?_eq_some_iff : ofKeyword? text = some b ↔ text = b.keyword := by
  constructor
  · intro h
    unfold ofKeyword? at h
    split at h <;> cases h <;> rfl
  · rintro rfl
    cases b <;> rfl

theorem trimmed_keyword (b : BuiltinReducer) : Text.Trimmed b.keyword.toList := by
  refine Text.trimmed_of_all ?_
  cases b <;> decide

/-- The text is the keyword with blanks around it. -/
def StandsIn (b : BuiltinReducer) (text : String) : Prop :=
  ∃ blanks blanks' : String, Text.isBlankText blanks ∧ Text.isBlankText blanks' ∧
    text = blanks ++ b.keyword ++ blanks'

theorem builtin?_eq_some_iff : Reducer.builtin? ⟨text⟩ = some b ↔ b.StandsIn text := by
  rw [Reducer.builtin?, ofKeyword?_eq_some_iff, Text.trim_eq_iff b.trimmed_keyword, StandsIn]

theorem StandsIn.unique (hb : b.StandsIn text) (hc : c.StandsIn text) : b = c := by
  rw [← builtin?_eq_some_iff] at hb hc
  exact Option.some.inj (hb.symm.trans hc)

end BuiltinReducer

def MapFunction.reread : MapFunction → MapFunction
  | script s => script s
  | query o => query (o.map Value.reread)

theorem MapFunction.toJson_reread (f : MapFunction) : f.reread.toJson = f.toJson.reread := by
  cases f with
  | script s => rfl
  | query o => exact o.toJson_map_reread

namespace View

open Json (depthLimit)

variable {v : View}

/-- The view that the texts of a view are read as. -/
def reread (v : View) : View where
  map := v.map.reread
  reduce := v.reduce
  dbcopy := v.dbcopy
  options := v.options.map (NamedMap.map Value.reread)
  extras := v.extras.reread

theorem toJson_reread (v : View) : v.reread.toJson = v.toJson.reread := by
  obtain ⟨map, reduce, dbcopy, options, extras⟩ := v
  simp only [toJson, reread, Json.reread, Json.rereadMembers, Json.rereadMembers_append,
    MapFunction.toJson_reread, Extras.toMembers_reread]
  cases reduce <;> cases dbcopy <;> cases options <;>
    simp [Json.member?, Json.rereadMembers, Reducer.toJson, Json.reread,
      NamedMap.toJson_map_reread]

theorem ofText_toText (hd : v.toJson.depth ≤ depthLimit) :
    Wire.ofText (Wire.toText v) = .ok v.reread := by
  refine Wire.ofText_of_spells ?_ v.reread.reads_toJson
  rw [show Wire.toJson v.reread = v.toJson.reread from v.toJson_reread]
  exact Json.spells_render_reread hd

theorem ofText_toPrettyText (hd : v.toJson.depth ≤ depthLimit) :
    Wire.ofText (Wire.toPrettyText v) = .ok v.reread := by
  refine Wire.ofText_of_spells ?_ v.reread.reads_toJson
  rw [show Wire.toJson v.reread = v.toJson.reread from v.toJson_reread]
  exact Json.spells_renderPretty_reread hd

end View

namespace Reducer

open Json (depthLimit)

def KeptIn (text : String) (read : Except DesignError View) : Prop :=
  ∃ v r, read = .ok v ∧ v.reduce = some r ∧ r.text = text ∧ r.builtin? = builtin? ⟨text⟩

theorem keptIn_of_eq_ok {v : View} {text : String} {read : Except DesignError View}
    (hv : v.reduce = some ⟨text⟩) (h : read = .ok v) : KeptIn text read :=
  ⟨v, ⟨text⟩, h, hv, rfl, rfl⟩

/-- A keyword is recognized through the blanks around it, and those are kept. The value of a view
gives it back, and so do its texts if it is not too deep. -/
theorem builtin?_iff_and_kept (text : String) :
    (∀ b, builtin? ⟨text⟩ = some b ↔ b.StandsIn text) ∧
    (∀ b c : BuiltinReducer, b.StandsIn text → c.StandsIn text → b = c) ∧
    ∀ v : View, v.reduce = some ⟨text⟩ →
      KeptIn text (Wire.ofValue (Wire.toValue v)) ∧
        (v.toJson.depth ≤ depthLimit →
          KeptIn text (Wire.ofText (Wire.toText v)) ∧
            KeptIn text (Wire.ofText (Wire.toPrettyText v))) := by
  refine ⟨fun b ↦ BuiltinReducer.builtin?_eq_some_iff, fun b c hb hc ↦ hb.unique hc,
    fun v hv ↦ ⟨?_, fun hd ↦ ⟨?_, ?_⟩⟩⟩
  · exact keptIn_of_eq_ok hv (Wire.ofValue_toValue v.reads_toJson v.distinct_toJson)
  · exact keptIn_of_eq_ok (v := v.reread) hv (View.ofText_toText hd)
  · exact keptIn_of_eq_ok (v := v.reread) hv (View.ofText_toPrettyText hd)

def countedByYear : View :=
  ((View.new (.script ⟨"function(doc) { emit(doc.year, null); }"⟩)).withReduce
    ⟨"\u2003_count\n"⟩).withOptions (.singleton "weight" (.number (.float 0.5 (by decide))))

theorem builtin?_iff_and_kept_countedByYear :
    builtin? ⟨"\u2003_count\n"⟩ = some .count ∧
      countedByYear.reduce = some ⟨"\u2003_count\n"⟩ ∧
      countedByYear.toJson.depth ≤ depthLimit ∧
      KeptIn "\u2003_count\n" (Wire.ofValue (Wire.toValue countedByYear)) ∧
      KeptIn "\u2003_count\n" (Wire.ofText (Wire.toText countedByYear)) ∧
      KeptIn "\u2003_count\n" (Wire.ofText (Wire.toPrettyText countedByYear)) := by
  obtain ⟨hbuiltin, -, hkept⟩ := builtin?_iff_and_kept "\u2003_count\n"
  obtain ⟨hvalue, htext⟩ := hkept countedByYear rfl
  have hdepth : countedByYear.toJson.depth ≤ depthLimit := by decide
  exact ⟨(hbuiltin .count).2 ⟨"\u2003", "\n", by decide, by decide, by decide⟩, rfl, hdepth, hvalue,
    htext hdepth⟩

end Reducer

end DesignDocs
