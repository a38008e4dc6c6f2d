import DesignDocs.Text.Blank

namespace DesignDocs.Text

variable {cs before after : List Char} {c : Char}

structure Trimmed (cs : List Char) : Prop where
  head : ∀ c ∈ cs.head?, isBlank c = false
  last : ∀ c ∈ cs.getLast?, isBlank c = false

theorem trimmed_of_all (h : cs.all fun c ↦ !isBlank c) : Trimmed cs := by
  have hall : ∀ c ∈ cs, isBlank c = false := by simpa using h
  exact ⟨fun c hc ↦ hall c (List.mem_of_mem_head? hc),
    fun c hc ↦ hall c (List.mem_of_mem_getLast? hc)⟩

theorem trimStart_eq_self (h : ∀ c ∈ cs.head?, isBlank c = false) : trimStart cs = cs := by
  cases cs with
  | nil => rfl
  | cons c cs => exact List.dropWhile_cons_of_neg (by simp [h c rfl])

theorem trimEnd_eq_self (h : ∀ c ∈ cs.getLast?, isBlank c = false) : trimEnd cs = cs := by
  rw [← List.head?_reverse] at h
  have hstart : trimStart cs.reverse = cs.reverse := trimStart_eq_self h
  rw [trimStart] at hstart
  rw [trimEnd, hstart, List.reverse_reverse]

theorem trimEnd_append {blanks : List Char} (h : blanks.all isBlank) (cs : List Char) :
    trimEnd (cs ++ blanks) = trimEnd cs := by
  have hreverse : trimStart (blanks.reverse ++ cs.reverse) = trimStart cs.reverse :=
    trimStart_append (by rwa [List.all_reverse]) cs.reverse
  rw [trimStart, trimStart] at hreverse
  rw [trimEnd, List.reverse_append, hreverse, trimEnd]

theorem exists_append_trimStart (cs : List Char) :
    ∃ blanks : List Char, blanks.all isBlank ∧ blanks ++ trimStart cs = cs :=
  ⟨cs.takeWhile isBlank, List.all_takeWhile, List.takeWhile_append_dropWhile⟩

theorem exists_append_trimEnd (cs : List Char) :
    ∃ blanks : List Char, blanks.all isBlank ∧ trimEnd cs ++ blanks = cs := by
  obtain ⟨blanks, hblanks, he⟩ := exists_append_trimStart cs.reverse
  refine ⟨blanks.reverse, by rwa [List.all_reverse], ?_⟩
  rw [trimEnd, ← trimStart, ← List.reverse_append, he, List.reverse_reverse]

theorem trimStart_subset (cs : List Char) : trimStart cs ⊆ cs :=
  (List.dropWhile_sublist _).subset

theorem trimEnd_prefix (cs : List Char) : trimEnd cs <+: cs :=
  List.reverse_suffix.1 (by simpa [trimEnd] using List.dropWhile_suffix _)

theorem head?_trimStart (cs : List Char) : ∀ c ∈ (trimStart cs).head?, isBlank c = false := by
  intro c hc
  have h := List.head?_dropWhile_not isBlank cs
  rw [← trimStart, Option.mem_def.1 hc] at h
  exact h

/-- What stands before a character that is no blank is trimmed on its own. -/
theorem trimStart_append_cons (hc : isBlank c = false) (before after : List Char) :
    trimStart (before ++ c :: after) = trimStart before ++ c :: after := by
  rw [trimStart, List.dropWhile_append]
  split
  · next h =>
    rw [trimStart, List.isEmpty_iff.1 h, List.dropWhile_cons_of_neg (by simp [hc])]
    rfl
  · rfl

theorem last_of_append (h : ∀ c ∈ (before ++ after).getLast?, isBlank c = false) :
    ∀ c ∈ after.getLast?, isBlank c = false := by
  intro c hc
  exact h c (by simp [List.getLast?_append, Option.mem_def.1 hc])

theorem toList_trim (s : String) : (trim s).toList = trimEnd (trimStart s.toList) :=
  String.toList_ofList

theorem trim_eq_self {s : String} (h : Trimmed s.toList) : trim s = s := by
  rw [trim, trimStart_eq_self h.head, trimEnd_eq_self h.last, String.ofList_toList]

/-- Blanks around a trimmed text are taken away, and nothing else. -/
theorem trim_append {s blanks blanks' : String} (hs : Trimmed s.toList) (h : isBlankText blanks)
    (h' : isBlankText blanks') : trim (blanks ++ s ++ blanks') = s := by
  have hstart : trimStart (blanks ++ s ++ blanks').toList =
      trimStart (s.toList ++ blanks'.toList) := by
    rw [String.append_assoc, String.toList_append, trimStart_append h, String.toList_append]
  refine String.toList_inj.1 ?_
  rw [toList_trim, hstart]
  cases hcs : s.toList with
  | nil =>
    have hnil := trimStart_append h' []
    rw [List.append_nil] at hnil
    rw [List.nil_append, hnil]
    rfl
  | cons c cs =>
    rw [hcs] at hs
    have hhead : trimStart (c :: cs ++ blanks'.toList) = c :: cs ++ blanks'.toList :=
      trimStart_eq_self hs.head
    rw [hhead, trimEnd_append h', trimEnd_eq_self hs.last]

theorem exists_append_trim (s : String) : ∃ blanks blanks' : String,
    isBlankText blanks ∧ isBlankText blanks' ∧ blanks ++ trim s ++ blanks' = s := by
  obtain ⟨before, hbefore, hstart⟩ := exists_append_trimStart s.toList
  obtain ⟨after, hafter, hend⟩ := exists_append_trimEnd (trimStart s.toList)
  refine ⟨.ofList before, .ofList after, ?_, ?_, String.toList_inj.1 ?_⟩
  · rwa [isBlankText, String.toList_ofList]
  · rwa [isBlankText, String.toList_ofList]
  · rw [String.toList_append, String.toList_append, String.toList_ofList, String.toList_ofList,
      toList_trim, List.append_assoc, hend, hstart]

theorem trim_eq_iff {s t : String} (ht : Trimmed t.toList) : trim s = t ↔
    ∃ blanks blanks' : String, isBlankText blanks ∧ isBlankText blanks' ∧
      s = blanks ++ t ++ blanks' := by
  constructor
  · rintro rfl
    obtain ⟨blanks, blanks', hb, hb', he⟩ := exists_append_trim s
    exact ⟨blanks, blanks', hb, hb', he.symm⟩
  · rintro ⟨blanks, blanks', hb, hb', rfl⟩
    exact trim_append ht hb hb'

theorem trimmed_trim (s : String) : Trimmed (trim s).toList := by
  rw [toList_trim]
  refine ⟨fun c hc ↦ ?_, fun c hc ↦ ?_⟩
  · obtain ⟨rest, hrest⟩ := trimEnd_prefix (trimStart s.toList)
    refine head?_trimStart s.toList c ?_
    rw [← hrest, List.head?_append, Option.mem_def.1 hc]
    rfl
  · rw [trimEnd, List.getLast?_reverse] at hc
    exact head?_trimStart _ c hc

end DesignDocs.Text
