import DesignDocs.Files.Load
import Mathlib.Data.List.TakeWhile

namespace DesignDocs

namespace Path

theorem go_ne_nil (cs : List Char) : split.go cs ≠ [] := by
  cases cs with
  | nil => exact nofun
  | cons c cs =>
    rw [split.go]
    split
    · exact nofun
    · split <;> exact nofun

theorem go_append_slash (cs ds : List Char) :
    split.go (cs ++ '/' :: ds) = split.go cs ++ split.go ds := by
  induction cs with
  | nil => rfl
  | cons c cs ih =>
    rw [List.cons_append, split.go, split.go, ih]
    split
    · rfl
    · cases hcs : split.go cs with
      | nil => exact absurd hcs (go_ne_nil cs)
      | cons name names => rfl

theorem go_of_notMem {cs : List Char} (h : '/' ∉ cs) : split.go cs = [cs] := by
  induction cs with
  | nil => rfl
  | cons c cs ih =>
    rw [List.mem_cons, not_or] at h
    rw [split.go, if_neg (Ne.symm h.1), ih h.2]

theorem split_append_slash (s t : String) : split (s ++ "/" ++ t) = split s ++ split t := by
  have h : (s ++ "/" ++ t).toList = s.toList ++ '/' :: t.toList := by simp
  rw [split, h, go_append_slash, List.map_append, split, split]

/-- A name that an entry of a directory may have. -/
structure IsName (name : String) : Prop where
  ne_empty : name ≠ ""
  ne_dot : name ≠ "."
  ne_dots : name ≠ ".."
  no_slash : '/' ∉ name.toList
  no_nul : '\x00' ∉ name.toList
  short : name.utf8ByteSize ≤ FileTree.nameLimit

instance (name : String) : Decidable (IsName name) :=
  decidable_of_iff (name ≠ "" ∧ name ≠ "." ∧ name ≠ ".." ∧ '/' ∉ name.toList ∧
      '\x00' ∉ name.toList ∧ name.utf8ByteSize ≤ FileTree.nameLimit)
    ⟨fun ⟨h₁, h₂, h₃, h₄, h₅, h₆⟩ ↦ ⟨h₁, h₂, h₃, h₄, h₅, h₆⟩,
      fun ⟨h₁, h₂, h₃, h₄, h₅, h₆⟩ ↦ ⟨h₁, h₂, h₃, h₄, h₅, h₆⟩⟩

theorem IsName.split_eq {name : String} (h : IsName name) : split name = [name] := by
  rw [split, go_of_notMem h.no_slash, List.map_singleton, String.ofList_toList]

/-- A slash stands before the name, whether the path ended with one or not. -/
theorem join_eq (path name : String) :
    ∃ parent, join path name = parent ++ "/" ++ name ∧ (path = parent ∨ path = parent ++ "/") := by
  rw [join]
  split
  · next h =>
    obtain ⟨cs, hcs⟩ := List.getLast?_eq_some_iff.1 h
    have hpath : path = String.ofList cs ++ "/" := by
      rw [← String.toList_inj, hcs]
      simp
    exact ⟨String.ofList cs, by rw [hpath], .inr hpath⟩
  · exact ⟨path, rfl, .inl rfl⟩

theorem nul_notMem_join {path name : String} (h : '\x00' ∉ path.toList) (hn : IsName name) :
    '\x00' ∉ (join path name).toList := by
  have hname := hn.no_nul
  rw [join]
  split <;> simp [h, hname]

/-- The text after the last dot of a name, with something before that dot. -/
def HasExtension (name extension : String) : Prop :=
  ∃ stem, stem ≠ "" ∧ name = stem ++ "." ++ extension ∧ '.' ∉ extension.toList

theorem extensionOf_of_notMem {name : String} (h : '.' ∉ name.toList) :
    extensionOf name = none := by
  have htake : name.toList.reverse.takeWhile (· != '.') = name.toList.reverse := by
    rw [List.takeWhile_eq_self_iff]
    intro c hc
    rw [bne_iff_ne]
    rintro rfl
    exact h (List.mem_reverse.1 hc)
  rw [extensionOf, htake, List.drop_length]

theorem extensionOf_append {stem extension : String} (h : '.' ∉ extension.toList) :
    extensionOf (stem ++ "." ++ extension) = if stem = "" then none else some extension := by
  have hbackward : (stem ++ "." ++ extension).toList.reverse =
      extension.toList.reverse ++ '.' :: stem.toList.reverse := by simp
  have htake : (extension.toList.reverse ++ '.' :: stem.toList.reverse).takeWhile (· != '.') =
      extension.toList.reverse := by
    rw [List.takeWhile_append_of_pos, List.takeWhile_cons_of_neg (by decide), List.append_nil]
    intro c hc
    rw [bne_iff_ne]
    rintro rfl
    exact h (List.mem_reverse.1 hc)
  rw [extensionOf, hbackward, htake, List.drop_left, List.reverse_reverse, String.ofList_toList]
  cases hstem : stem.toList.reverse with
  | nil => rw [if_pos (by simpa using hstem)]
  | cons c cs =>
    rw [if_neg]
    rintro rfl
    cases hstem

theorem extensionOf_eq_some_iff {name extension : String} :
    extensionOf name = some extension ↔ HasExtension name extension := by
  constructor
  · intro h
    by_cases hdot : '.' ∈ name.toList.reverse
    · obtain ⟨after, before, hsplit, hafter⟩ := List.eq_append_cons_of_mem hdot
      have hname : name = String.ofList before.reverse ++ "." ++ String.ofList after.reverse := by
        have hchars := congrArg List.reverse hsplit
        rw [List.reverse_reverse] at hchars
        rw [← String.toList_inj, hchars]
        simp
      rw [hname, extensionOf_append (by simpa using hafter)] at h
      split at h
      · cases h
      · next hstem =>
        cases h
        exact ⟨_, hstem, hname, by simpa using hafter⟩
    · rw [extensionOf_of_notMem fun hm ↦ hdot (List.mem_reverse.2 hm)] at h
      cases h
  · rintro ⟨stem, hstem, rfl, hext⟩
    rw [extensionOf_append hext, if_neg hstem]

theorem fileName?_join {name : String} (h : IsName name) (path : String) :
    fileName? (join path name) = some name := by
  obtain ⟨parent, hjoin, -⟩ := join_eq path name
  have hlast : (names (join path name)).getLast? = some name := by
    rw [names, hjoin, split_append_slash, h.split_eq, List.filter_append, List.filter_cons_of_pos,
      List.filter_nil, List.getLast?_concat]
    simp [h.ne_empty, h.ne_dot]
  rw [fileName?, hlast]
  exact if_neg h.ne_dots

end Path

end DesignDocs
