import DesignDocs.Proofs.Except
import DesignDocs.Proofs.Files.Path

namespace DesignDocs

theorem FileNode.at?_append (n : FileNode) (p q : Place) :
    n.at? (p ++ q) = (n.at? p).bind (·.at? q) := by
  induction p generalizing n with
  | nil => rfl
  | cons name p ih =>
    rw [List.cons_append, at?, at?]
    cases n.child? name with
    | none => rfl
    | some child => exact ih child

namespace FileTree

variable {t : FileTree} {links : Nat} {here : Place} {names : List String}

/-- Steps after others are taken from where these lead, and lead nowhere if these do not. -/
theorem walk_append_cases (t : FileTree) (links : Nat) (here : Place) (names : List String) :
    (∃ place left, t.walk links here names = .ok place ∧
      ∀ more, t.walk links here (names ++ more) = t.walk left place more) ∨
    (∃ f, t.walk links here names = .error f) ∧
      ∀ more, ∃ g, t.walk links here (names ++ more) = .error g := by
  fun_induction walk t links here names with
  | case1 links here => exact .inl ⟨here, links, rfl, fun _ ↦ rfl⟩
  | case3 links here rest entries hdir ih =>
    have hstep : ∀ ms, t.walk links here ("." :: ms) = t.walk links here ms := fun ms ↦ by
      rw [walk, hdir]
      rfl
    simpa only [List.cons_append, hstep] using ih
  | case5 links here rest entries hdir hup hne ih =>
    have hstep : ∀ ms, t.walk links here (".." :: ms) = t.walk links here.dropLast ms := fun ms ↦ by
      rw [walk, hdir]
      simp [hup]
    simpa only [List.cons_append, hstep] using ih
  | case10 here name rest entries hdir hdot hdots hshort target hlink links habs ih =>
    have hstep : ∀ ms, t.walk (links + 1) here (name :: ms) =
        t.walk links here (steps target ++ ms) := fun ms ↦ by
      rw [walk, hdir]
      simp [hdot, hdots, hshort, hlink, habs]
    simpa only [List.cons_append, List.append_assoc, hstep] using ih
  | case11 links here name rest entries hdir hdot hdots hshort node hnode hlookup ih =>
    have hstep : ∀ ms, t.walk links here (name :: ms) = t.walk links (here ++ [name]) ms :=
      fun ms ↦ by
        rw [walk, hdir]
        simp only [hdot, hdots, hshort, hlookup, if_false]
    simpa only [List.cons_append, hstep] using ih
  | _ =>
    refine .inr ⟨⟨_, rfl⟩, fun more ↦ ?_⟩
    rw [List.cons_append, walk]
    simp [*]

theorem walk_of_walk_dot {place : Place} (h : t.walk links here (names ++ ["."]) = .ok place) :
    t.walk links here names = .ok place := by
  obtain ⟨place', left, hplace, hmore⟩ | ⟨-, hmore⟩ := walk_append_cases t links here names
  · rw [hmore, walk] at h
    split at h
    · cases h
    · rw [if_pos rfl, walk, Except.ok.injEq] at h
      rw [hplace, h]
    · cases h
  · obtain ⟨f, hf⟩ := hmore ["."]
    rw [hf] at h
    cases h

variable {place : Place} {path name : String} {entries : List (String × FileNode)}
  {node : FileNode}

theorem walk_entry (hdir : t.root.at? here = some (.directory entries)) (hn : Path.IsName name)
    (hentry : entries.lookup name = some node) (hnode : ∀ target, node ≠ .link target) :
    t.walk links here [name] = .ok (here ++ [name]) := by
  have hshort : ¬ nameLimit < name.utf8ByteSize := Nat.not_lt.2 hn.short
  rw [walk, hdir]
  simp only [hn.ne_dot, hn.ne_dots, hshort, hentry, if_false]
  cases node with
  | link target => exact absurd rfl (hnode target)
  | _ => rw [walk]

/-- The names of a path that are not empty. -/
def properNames (path : String) : List String := (Path.split path).filter (· != "")

theorem steps_cases (path : String) :
    steps path = properNames path ∨ steps path = properNames path ++ ["."] := by
  rw [steps]
  split
  · exact .inr rfl
  · exact .inl rfl

theorem properNames_append_slash (s t : String) :
    properNames (s ++ "/" ++ t) = properNames s ++ properNames t := by
  rw [properNames, Path.split_append_slash, List.filter_append, properNames, properNames]

theorem steps_of_name (h : Path.IsName name) : steps name = [name] := by
  have hlast : [name].getLast? ≠ some "" := by simp [h.ne_empty]
  rw [steps, h.split_eq, if_neg hlast, List.filter_cons_of_pos (by simp [h.ne_empty]),
    List.filter_nil]

theorem steps_append_slash (s : String) (h : Path.IsName name) :
    steps (s ++ "/" ++ name) = properNames s ++ [name] := by
  have hlast : (Path.split s ++ [name]).getLast? ≠ some "" := by simp [h.ne_empty]
  rw [steps, Path.split_append_slash, h.split_eq, if_neg hlast, List.filter_append,
    List.filter_cons_of_pos (by simp [h.ne_empty]), List.filter_nil, properNames]

/-- Joining with a name adds a step, and takes the one away that a slash at the end stands for. -/
theorem steps_join (base rest : String) (h : Path.IsName name) :
    ∃ rest', Path.join (base ++ "/" ++ rest) name = base ++ "/" ++ rest' ∧
      steps rest' = properNames rest ++ [name] := by
  rw [Path.join]
  split
  · next hlast =>
    obtain hnil | ⟨cs, c, hcs⟩ := List.eq_nil_or_concat rest.toList
    · obtain rfl : rest = "" := by simpa using hnil
      exact ⟨name, by simp, steps_of_name h⟩
    · have hchars : (base ++ "/" ++ rest).toList = base.toList ++ '/' :: cs ++ [c] := by simp [hcs]
      rw [hchars, List.getLast?_concat, Option.some.injEq] at hlast
      subst hlast
      obtain rfl : rest = String.ofList cs ++ "/" := by
        rw [← String.toList_inj, hcs]
        simp
      have hproper := properNames_append_slash (String.ofList cs) ""
      rw [String.append_empty] at hproper
      refine ⟨String.ofList cs ++ "/" ++ name, by simp only [String.append_assoc], ?_⟩
      rw [steps_append_slash _ h, hproper]
      exact congrArg (· ++ [name]) (List.append_nil _).symm
  · exact ⟨rest ++ "/" ++ name, by simp only [String.append_assoc], steps_append_slash rest h⟩

theorem walk_properNames (h : t.walk links here (steps path) = .ok place) :
    t.walk links here (properNames path) = .ok place := by
  obtain hsteps | hsteps := steps_cases path
  · rwa [hsteps] at h
  · rw [hsteps] at h
    exact walk_of_walk_dot h

structure Admissible (path : String) : Prop where
  no_nul : '\x00' ∉ path.toList
  short : path.utf8ByteSize ≤ pathLimit

theorem resolve_of_admissible (h : Admissible path) :
    t.resolve path =
      if path = t.location then .ok []
      else if (t.location.toList ++ ['/']).isPrefixOf path.toList then
        t.walk linkLimit []
          (steps (String.ofList (path.toList.drop (t.location.toList.length + 1))))
      else .error (above (steps path)) := by
  rw [resolve, if_neg (by simpa using h.no_nul), if_neg (Nat.not_lt.2 h.short)]

theorem admissible_of_resolve (h : t.resolve path = .ok place) : Admissible path := by
  rw [resolve] at h
  split at h
  · cases h
  · next hnul =>
    split at h
    · cases h
    · next hshort => exact ⟨by simpa using hnul, Nat.not_lt.1 hshort⟩

theorem resolve_below {rest : String} (h : Admissible (t.location ++ "/" ++ rest)) :
    t.resolve (t.location ++ "/" ++ rest) = t.walk linkLimit [] (steps rest) := by
  have hne : t.location ++ "/" ++ rest ≠ t.location := by
    intro he
    have hlength := congrArg (fun s ↦ s.toList.length) he
    simp at hlength
  have hchars : (t.location ++ "/" ++ rest).toList =
      t.location.toList ++ ['/'] ++ rest.toList := by simp
  rw [resolve_of_admissible h, if_neg hne, hchars,
    if_pos (List.isPrefixOf_iff_prefix.2 (List.prefix_append _ _)), List.drop_left' (by simp),
    String.ofList_toList]

/-- A path leads into the tree from its location only. -/
theorem resolve_cases (h : t.resolve path = .ok place) :
    path = t.location ∧ place = [] ∨
      ∃ rest, path = t.location ++ "/" ++ rest ∧
        t.walk linkLimit [] (steps rest) = .ok place := by
  have hpath := admissible_of_resolve h
  have hresolve := h
  rw [resolve_of_admissible hpath] at h
  split at h
  · next he =>
    cases h
    exact .inl ⟨he, rfl⟩
  · split at h
    · next hprefix =>
      obtain ⟨rest, hrest⟩ := List.isPrefixOf_iff_prefix.1 hprefix
      have he : path = t.location ++ "/" ++ String.ofList rest := by
        rw [← String.toList_inj, ← hrest]
        simp
      subst he
      exact .inr ⟨_, rfl, (resolve_below hpath).symm.trans hresolve⟩
    · cases h

theorem Admissible.join (h : Admissible path) (hn : Path.IsName name)
    (hshort : (Path.join path name).utf8ByteSize ≤ pathLimit) : Admissible (Path.join path name) :=
  ⟨Path.nul_notMem_join h.no_nul hn, hshort⟩

theorem find_of_long (hnul : '\x00' ∉ path.toList) (hlong : pathLimit < path.utf8ByteSize) :
    t.find path = .error .nameTooLong := by
  rw [find, resolve, if_neg (by simpa using hnul), if_pos hlong]
  rfl

theorem admissible_of_find (h : t.find path = .ok (place, node)) : Admissible path := by
  obtain ⟨_, hplace, -⟩ := Except.bind_eq_ok_iff.1 h
  exact admissible_of_resolve hplace

theorem find_location (h : Admissible t.location) : t.find t.location = .ok ([], t.root) := by
  rw [find, resolve_of_admissible h, if_pos rfl]
  rfl

/-- What a directory has under a name, other than a link, is found under the joined path. -/
theorem find_join (hlocation : t.location.toList.getLast? ≠ some '/')
    (h : t.find path = .ok (place, .directory entries)) (hn : Path.IsName name)
    (hentry : entries.lookup name = some node) (hnode : ∀ target, node ≠ .link target)
    (hshort : (Path.join path name).utf8ByteSize ≤ pathLimit) :
    t.find (Path.join path name) = .ok (place ++ [name], node) := by
  obtain ⟨here, hplace, hfound⟩ := Except.bind_eq_ok_iff.1 h
  split at hfound
  · next n hdir =>
    cases hfound
    have hadmissible := (admissible_of_resolve hplace).join hn hshort
    have hresolve : t.resolve (Path.join path name) = .ok (place ++ [name]) := by
      obtain ⟨rfl, rfl⟩ | ⟨rest, rfl, hwalk⟩ := resolve_cases hplace
      · rw [Path.join, if_neg hlocation] at hadmissible ⊢
        rw [resolve_below hadmissible, steps_of_name hn, walk_entry hdir hn hentry hnode]
      · obtain ⟨rest', hjoin, hsteps⟩ := steps_join t.location rest hn
        obtain ⟨_, left, hp, hmore⟩ | ⟨⟨f, hf⟩, -⟩ :=
          walk_append_cases t linkLimit [] (properNames rest)
        · rw [walk_properNames hwalk] at hp
          cases hp
          rw [hjoin] at hadmissible ⊢
          rw [resolve_below hadmissible, hsteps, hmore, walk_entry hdir hn hentry hnode]
        · rw [walk_properNames hwalk] at hf
          cases hf
    have hat : t.root.at? (place ++ [name]) = some node := by
      rw [FileNode.at?_append, hdir, Option.bind_some, FileNode.at?, FileNode.child?, hentry]
      rfl
    rw [find, hresolve, Except.ok_bind, hat]
    rfl
  · cases hfound

end FileTree

end DesignDocs
