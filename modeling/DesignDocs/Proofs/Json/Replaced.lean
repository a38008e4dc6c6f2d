import DesignDocs.Proofs.Json.Described

namespace DesignDocs

section

variable {α : Type} {name : String} {a : α} {l : List (String × α)}

theorem eq_or_mem_of_mem_putEntry {p : String × α} (h : p ∈ putEntry name a l) :
    p = (name, a) ∨ p ∈ l := by
  induction l with
  | nil => exact .inl (List.mem_singleton.1 h)
  | cons q rest ih =>
    obtain ⟨n, b⟩ := q
    rw [putEntry] at h
    split at h
    · next hn =>
      subst hn
      exact (List.mem_cons.1 h).imp_right (List.mem_cons_of_mem _)
    · obtain rfl | h := List.mem_cons.1 h
      · exact .inr List.mem_cons_self
      · exact (ih h).imp_right (List.mem_cons_of_mem _)

theorem self_mem_putEntry : (name, a) ∈ putEntry name a l := by
  induction l with
  | nil => exact List.mem_singleton_self _
  | cons q rest ih =>
    obtain ⟨n, b⟩ := q
    rw [putEntry]
    split
    · next hn =>
      subst hn
      exact List.mem_cons_self
    · exact List.mem_cons_of_mem _ ih

/-- With another value under one name, a list is related to what it was if the values of this name
are. -/
theorem forall₂_putEntry {R : String × α → String × α → Prop} (hrefl : ∀ p, R p p)
    (hname : ∀ b, (name, b) ∈ l → R (name, a) (name, b)) (h : name ∈ l.map Prod.fst) :
    List.Forall₂ R (putEntry name a l) l := by
  induction l with
  | nil => cases h
  | cons q rest ih =>
    obtain ⟨n, b⟩ := q
    rw [putEntry]
    split
    · next hn =>
      subst hn
      exact .cons (hname b List.mem_cons_self) (List.forall₂_same.2 fun p _ ↦ hrefl p)
    · next hn =>
      have hrest : name ∈ rest.map Prod.fst := by
        obtain h | h := List.mem_cons.1 h
        · exact absurd h.symm hn
        · exact h
      exact .cons (hrefl _) (ih (fun b hb ↦ hname b (List.mem_cons_of_mem _ hb)) hrest)

end

theorem map_putEntry {α β : Type} (f : α → β) (name : String) (a : α) (l : List (String × α)) :
    (putEntry name a l).map (fun p ↦ (p.1, f p.2)) =
      putEntry name (f a) (l.map fun p ↦ (p.1, f p.2)) := by
  induction l with
  | nil => rfl
  | cons p rest ih =>
    obtain ⟨n, b⟩ := p
    rw [putEntry, List.map_cons, putEntry]
    split
    · rfl
    · rw [List.map_cons, ih]

theorem exists_first_not {α : Type} {P : α → Prop} {l : List α} (h : ∃ a ∈ l, ¬ P a) :
    ∃ before a after, l = before ++ a :: after ∧ (∀ b ∈ before, P b) ∧ ¬ P a := by
  induction l with
  | nil =>
    obtain ⟨a, ha, -⟩ := h
    cases ha
  | cons b l ih =>
    by_cases hb : P b
    · obtain ⟨a, ha, hbad⟩ := h
      obtain rfl | ha := List.mem_cons.1 ha
      · exact absurd hb hbad
      · obtain ⟨before, c, after, rfl, hbefore, hc⟩ := ih ⟨a, ha, hbad⟩
        exact ⟨b :: before, c, after, rfl, List.forall_mem_cons.2 ⟨hb, hbefore⟩, hc⟩
    · exact ⟨[], b, l, rfl, List.forall_mem_nil _, hb⟩

namespace Json

open Source (ofTreeItems trailing)

variable {α ε : Type} {read : Reader α}

theorem readAll_eq_mapM (items : List Json) :
    (ofTreeItems trailing items).readAll read = items.mapM (decode read) := by
  induction items with
  | nil => rfl
  | cons v vs ih =>
    rw [ofTreeItems, Items.readAll, List.mapM_cons, ih]
    rfl

theorem exists_first_misfit {Well : Json → Prop} {kindOf : Json → ErrorKind}
    (hok : ∀ v, Well v → ∃ a, decode read v = .ok a)
    (herror : ∀ v, ¬ Well v → ∃ f, decode read v = .error f ∧ f.kind = kindOf v)
    {items : List Json} (h : ∃ v ∈ items, ¬ Well v) :
    ∃ before v after f, items = before ++ v :: after ∧ (∀ w ∈ before, Well w) ∧ ¬ Well v ∧
      (ofTreeItems trailing items).readAll read = .error f ∧ f.kind = kindOf v := by
  obtain ⟨before, v, after, rfl, hbefore, hv⟩ := exists_first_not h
  obtain ⟨f, hf, hkind⟩ := herror v hv
  refine ⟨before, v, after, f, rfl, hbefore, hv, ?_, hkind⟩
  rw [readAll_eq_mapM]
  exact Except.mapM_eq_error_of_append (fun w hw ↦ hok w (hbefore w hw)) hf

namespace Record

variable {r : Record ε} {members : List (String × Json)} {key : String} {v : Json}

theorem spelledNames_congr (fields : List (Field ε)) {xs ys : List (String × Json)}
    (h : xs.map Prod.fst = ys.map Prod.fst) : spelledNames fields xs = spelledNames fields ys := by
  have hnames : ∀ ms : List (String × Json), spelledNames fields ms =
      (ms.map Prod.fst).filterMap fun name ↦ (field? fields name).map (·.name) := by
    intro ms
    rw [List.filterMap_map]
    rfl
  rw [hnames, hnames, h]

theorem spelledNames_putEntry (fields : List (Field ε)) (hkey : key ∈ members.map Prod.fst) :
    spelledNames fields (putEntry key v members) = spelledNames fields members :=
  spelledNames_congr fields (by rw [names_putEntry, if_pos hkey])

/-- A member that does not decode gives its fault to a record whose other members do. -/
theorem read_putEntry_of_error (hn : (spelledNames r.fields members).Nodup)
    (hall : Decodable r.fields members) (hkey : key ∈ members.map Prod.fst) {f : Field ε}
    (hf : field? r.fields key = some f) {fault : Fault} (hv : decode f.read v = .error fault) :
    decode r.read (.object (putEntry key v members)) = .error fault := by
  have hn' : (spelledNames r.fields (putEntry key v members)).Nodup := by
    rwa [spelledNames_putEntry r.fields hkey]
  refine read_object_of_error hn' self_mem_putEntry hf hv fun p hp hne ↦ ?_
  exact hall p ((eq_or_mem_of_mem_putEntry hp).resolve_left hne)

/-- The first item that is not well gives its fault to a record whose other members decode. -/
theorem exists_first_misfit {read : Reader α} {Well : Json → Prop} {kindOf : Json → ErrorKind}
    (hok : ∀ v, Well v → ∃ a, decode read v = .ok a)
    (herror : ∀ v, ¬ Well v → ∃ f, decode read v = .error f ∧ f.kind = kindOf v)
    (hn : (spelledNames r.fields members).Nodup) (hall : Decodable r.fields members)
    (hkey : key ∈ members.map Prod.fst) {f : Field ε} (hf : field? r.fields key = some f)
    {items : List Json} (hitems : ∀ fault,
      (ofTreeItems trailing items).readAll read = .error fault →
        decode f.read (.array items) = .error fault)
    (h : ∃ v ∈ items, ¬ Well v) :
    ∃ before v after fault, items = before ++ v :: after ∧ (∀ w ∈ before, Well w) ∧ ¬ Well v ∧
      decode r.read (.object (putEntry key (.array items) members)) = .error fault ∧
      fault.kind = kindOf v := by
  obtain ⟨before, v, after, fault, hsplit, hbefore, hv, hread, hkind⟩ :=
    Json.exists_first_misfit hok herror h
  exact ⟨before, v, after, fault, hsplit, hbefore, hv,
    read_putEntry_of_error hn hall hkey hf (hitems fault hread), hkind⟩

end Record

end Json

end DesignDocs
