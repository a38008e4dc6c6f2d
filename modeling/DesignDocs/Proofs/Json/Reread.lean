import DesignDocs.Proofs.Json.FloatText
import DesignDocs.Proofs.Json.Record

namespace DesignDocs

namespace Json

namespace Number

/-- The number that the text of a number is read as. Rounding twice may give another float. -/
def reread (n : Number) : Number :=
  match Numeral.scan (symbols n.text.toList) with
  | .ok (m, _) => m.number?.getD n
  | .error _ => n

theorem reread_eq {n m : Number} {t : NumberText} (ht : t.WellFormed)
    (hchars : t.chars = n.text.toList) (hm : t.numeral.number? = some m) : n.reread = m := by
  have hscan := NumberText.scan_chars ht (show Follows [] from trivial)
  rw [List.append_nil, hchars] at hscan
  rw [reread, hscan]
  dsimp only
  rw [hm, Option.getD_some]

theorem reread_integer {i : ℤ} (hi : FitsWord i) : (integer i hi).reread = integer i hi :=
  reread_eq (NumberText.wellFormed_ofInt i) (NumberText.chars_ofInt i) (NumberText.number?_ofInt hi)

end Number

mutual

/-- The tree that the text of a tree is read as, if it is not too deep. -/
def reread : Json → Json
  | number n => number n.reread
  | array items => array (rereadItems items)
  | object members => object (rereadMembers members)
  | v => v

def rereadItems : List Json → List Json
  | [] => []
  | v :: vs => v.reread :: rereadItems vs

def rereadMembers : List (String × Json) → List (String × Json)
  | [] => []
  | (k, v) :: ms => (k, v.reread) :: rereadMembers ms

end

theorem rereadItems_eq (items : List Json) : rereadItems items = items.map reread := by
  induction items with
  | nil => rfl
  | cons v vs ih => rw [rereadItems, ih, List.map_cons]

theorem rereadMembers_eq (members : List (String × Json)) :
    rereadMembers members = members.map fun p ↦ (p.1, p.2.reread) := by
  induction members with
  | nil => rfl
  | cons p ms ih => rw [rereadMembers, ih, List.map_cons]

theorem rereadMembers_append (ms ns : List (String × Json)) :
    rereadMembers (ms ++ ns) = rereadMembers ms ++ rereadMembers ns := by
  rw [rereadMembers_eq, rereadMembers_eq, rereadMembers_eq, List.map_append]

theorem reread_of_integral {v : Json} (hi : v.Integral) : v.reread = v := by
  induction v using induct with
  | null | bool | string => rfl
  | number n =>
    cases n with
    | integer i fits => rw [reread, Number.reread_integer]
    | float x finite => exact hi.elim
  | array items ih =>
    rw [Integral, integralItems_iff] at hi
    rw [reread, rereadItems_eq, List.map_congr_left fun v hv ↦ ih v hv (hi v hv), List.map_id']
  | object members ih =>
    rw [Integral, integralMembers_iff] at hi
    have hmembers : ∀ p ∈ members, (p.1, p.2.reread) = p := fun p hp ↦ by
      rw [ih p hp (hi p hp)]
    rw [reread, rereadMembers_eq, List.map_congr_left hmembers, List.map_id']

mutual

theorem depth_reread : ∀ v : Json, v.reread.depth = v.depth
  | .null | .bool _ | .number _ | .string _ => rfl
  | .array items => congrArg (· + 1) (depthItems_rereadItems items)
  | .object members => congrArg (· + 1) (depthMembers_rereadMembers members)

theorem depthItems_rereadItems : ∀ vs : List Json, depthItems (rereadItems vs) = depthItems vs
  | [] => rfl
  | v :: vs => congrArg₂ max (depth_reread v) (depthItems_rereadItems vs)

theorem depthMembers_rereadMembers :
    ∀ ms : List (String × Json), depthMembers (rereadMembers ms) = depthMembers ms
  | [] => rfl
  | (_, v) :: ms => congrArg₂ max (depth_reread v) (depthMembers_rereadMembers ms)

end

theorem distinct_reread {v : Json} (h : v.Distinct) : v.reread.Distinct := by
  induction v using induct with
  | null | bool | string | number => trivial
  | array items ih =>
    rw [Distinct, distinctItems_iff] at h
    rw [reread, rereadItems_eq, Distinct, distinctItems_iff, List.forall_mem_map]
    exact fun v hv ↦ ih v hv (h v hv)
  | object members ih =>
    rw [Distinct, distinctMembers_iff] at h
    rw [reread, rereadMembers_eq, Distinct, distinctMembers_iff, List.map_map, List.forall_mem_map]
    exact ⟨h.1, fun p hp ↦ ih p hp (h.2 p hp)⟩

end Json

def Value.reread (v : Value) : Value := ⟨v.json.reread, Json.distinct_reread v.distinct⟩

theorem NamedMap.members_map_reread (o : Object) :
    (o.map Value.reread).entries.map (fun p ↦ (p.1, p.2.json)) =
      Json.rereadMembers (o.entries.map fun p ↦ (p.1, p.2.json)) := by
  rw [Json.rereadMembers_eq, map, List.map_map, List.map_map]
  rfl

theorem NamedMap.toJson_map_reread (o : Object) :
    (o.map Value.reread).toJson = o.toJson.reread := congrArg Json.object o.members_map_reread

namespace Extras

variable {modelled : List String}

def reread (x : Extras modelled) : Extras modelled :=
  ⟨x.members.map Value.reread, fun name h ↦ x.unmodelled name (by rwa [NamedMap.names_map] at h)⟩

theorem toMembers_reread (x : Extras modelled) :
    x.reread.toMembers = Json.rereadMembers x.toMembers := x.members.members_map_reread

end Extras

end DesignDocs
