namespace DesignDocs

variable {σ α : Type}

/-- What the last of the steps that sets a value sets it to. -/
def lastOf (f : σ → Option α) (steps : List σ) : Option α := (steps.filterMap f).getLast?

/-- All that the steps give; the absence of a list is told from an empty one. -/
def allOf (f : σ → Option α) (steps : List σ) : Option (List α) :=
  if (steps.filterMap f).isEmpty then none else some (steps.filterMap f)

def grown (l : Option (List α)) : Option α → Option (List α)
  | none => l
  | some a => some (l.getD [] ++ [a])

theorem lastOf_concat (f : σ → Option α) (steps : List σ) (step : σ) :
    lastOf f (steps ++ [step]) = (f step).or (lastOf f steps) := by
  rw [lastOf, List.filterMap_append]
  cases h : f step with
  | none => rw [List.filterMap_cons_none h, List.filterMap_nil, List.append_nil]; rfl
  | some a => rw [List.filterMap_cons_some h, List.filterMap_nil, List.getLast?_concat]; rfl

theorem getD_allOf (f : σ → Option α) (steps : List σ) :
    (allOf f steps).getD [] = steps.filterMap f := by
  rw [allOf]
  split
  · next h => rw [List.isEmpty_iff.1 h]; rfl
  · rfl

theorem allOf_ne_nil (f : σ → Option α) (steps : List σ) : allOf f steps ≠ some [] := by
  rw [allOf]
  split
  · exact nofun
  · next h => exact fun hnil ↦ h (List.isEmpty_iff.2 (Option.some.inj hnil))

theorem allOf_concat (f : σ → Option α) (steps : List σ) (step : σ) :
    allOf f (steps ++ [step]) = grown (allOf f steps) (f step) := by
  cases h : f step with
  | none =>
    rw [allOf, List.filterMap_append, List.filterMap_cons_none h, List.filterMap_nil,
      List.append_nil]
    rfl
  | some a =>
    rw [allOf, List.filterMap_append, List.filterMap_cons_some h, List.filterMap_nil,
      if_neg (by simp), grown, getD_allOf]

/-- A list with further elements, if there are any to come. -/
def appended (l : Option (List α)) : Option (List α) → Option (List α)
  | none => l
  | some more => some (l.getD [] ++ more)

theorem flatten_allOf_concat (f : σ → Option (List α)) (steps : List σ) (step : σ) :
    (allOf f (steps ++ [step])).map List.flatten =
      appended ((allOf f steps).map List.flatten) (f step) := by
  rw [allOf_concat]
  cases f step with
  | none => rfl
  | some more => cases allOf f steps <;> simp [grown, appended]

variable {δ φ ε : Type}

/-- The fault of the earliest step that has one, each step judged by those before it. -/
def firstFault? (fault? : List σ → σ → Option φ) (before : List σ) : List σ → Option φ
  | [] => none
  | step :: steps => (fault? before step).or (firstFault? fault? (before ++ [step]) steps)

theorem firstFault?_const (fault? : σ → Option φ) (before steps : List σ) :
    firstFault? (fun _ ↦ fault?) before steps = steps.findSome? fault? := by
  induction steps generalizing before with
  | nil => rfl
  | cons step steps ih =>
    rw [firstFault?, ih, List.findSome?_cons]
    cases fault? step <;> rfl

/-- Once there is an error it stays; until then something holds of the state, and the next error
is that of a step at fault. -/
structure StopsAtFault (error : δ → Option ε) (apply : δ → σ → δ)
    (fault? : List σ → σ → Option φ) (report : φ → ε) (Holds : List σ → δ → Prop) : Prop where
  stays : ∀ {d e}, error d = some e → ∀ step, error (apply d step) = some e
  goes : ∀ {steps d}, error d = none → Holds steps d → ∀ step,
    error (apply d step) = (fault? steps step).map report ∧
      (fault? steps step = none → Holds (steps ++ [step]) (apply d step))

namespace StopsAtFault

variable {error : δ → Option ε} {apply : δ → σ → δ} {fault? : List σ → σ → Option φ}
  {report : φ → ε} {Holds : List σ → δ → Prop}
  (h : StopsAtFault error apply fault? report Holds)

include h

theorem error_foldl {d : δ} {e : ε} (he : error d = some e) (steps : List σ) :
    error (steps.foldl apply d) = some e := by
  induction steps generalizing d with
  | nil => exact he
  | cons step steps ih => exact ih (h.stays he step)

theorem foldl (before : List σ) {d : δ} (he : error d = none) (hd : Holds before d)
    (steps : List σ) :
    error (steps.foldl apply d) = (firstFault? fault? before steps).map report ∧
      (firstFault? fault? before steps = none → Holds (before ++ steps) (steps.foldl apply d)) := by
  induction steps generalizing before d with
  | nil =>
    rw [List.append_nil]
    exact ⟨he, fun _ ↦ hd⟩
  | cons step steps ih =>
    obtain ⟨herror, hholds⟩ := h.goes he hd step
    cases hf : fault? before step with
    | some f =>
      rw [hf] at herror
      rw [firstFault?, hf]
      exact ⟨h.error_foldl herror steps, nofun⟩
    | none =>
      rw [hf] at herror
      rw [firstFault?, hf, List.append_cons before step steps]
      exact ih _ herror (hholds hf)

end StopsAtFault

end DesignDocs
