import DesignDocs.Document.Validity
import DesignDocs.Proofs.Document.Basic
import DesignDocs.Proofs.Document.Section

namespace DesignDocs

section

variable {α : Type} [BEq α]

theorem exists_mem_of_option_beq {o p : Option α} (h : o == p) {a : α} (ha : a ∈ o) :
    ∃ b ∈ p, a == b := by
  cases ha
  cases p with
  | none => cases h
  | some b => exact ⟨b, rfl, by simpa using h⟩

theorem exists_mem_of_list_beq {l m : List α} (h : l == m) {a : α} (ha : a ∈ l) :
    ∃ b ∈ m, a == b := by
  induction l generalizing m with
  | nil => cases ha
  | cons c l ih =>
    cases m with
    | nil => cases h
    | cons d m =>
      rw [List.cons_beq_cons, Bool.and_eq_true] at h
      obtain rfl | ha := List.mem_cons.1 ha
      · exact ⟨d, List.mem_cons_self, h.1⟩
      · obtain ⟨b, hb, hab⟩ := ih h.2 ha
        exact ⟨b, List.mem_cons_of_mem d hb, hab⟩

end

namespace NamedMap

variable {α : Type} [BEq α] {m n : NamedMap α}

/-- Each entry of one of two equal maps has an equal one in the other. -/
theorem exists_mem_of_beq (h : m == n) {p : String × α} (hp : p ∈ m.entries) :
    ∃ a, (p.1, a) ∈ n.entries ∧ p.2 == a := by
  have hfind := beq_iff_find?.1 h p.1
  rw [find?_eq_some_iff.2 hp] at hfind
  obtain ⟨a, ha, hbeq⟩ := Option.rel_some_iff.1 hfind
  exact ⟨a, find?_eq_some_iff.1 ha, hbeq⟩

theorem names_subset_of_beq (h : m == n) : m.names ⊆ n.names := by
  intro name hname
  obtain ⟨p, hp, rfl⟩ := List.mem_map.1 hname
  obtain ⟨a, ha, -⟩ := exists_mem_of_beq h hp
  exact List.mem_map.2 ⟨_, ha, rfl⟩

theorem isEmpty_eq_of_beq (h : m == n) : m.isEmpty = n.isEmpty := by
  have hsize : m.size = n.size := by
    change NamedMap.beq m n at h
    rw [NamedMap.beq, Bool.and_eq_true, beq_iff_eq] at h
    exact h.1
  rw [size, size] at hsize
  rw [isEmpty, isEmpty, Bool.eq_iff_iff, List.isEmpty_iff_length_eq_zero,
    List.isEmpty_iff_length_eq_zero, hsize]

end NamedMap

theorem MapFunction.isEmpty_eq_of_beq {f g : MapFunction} (h : f == g) :
    f.isEmpty = g.isEmpty := by
  cases f with
  | script s =>
    cases g with
    | script t =>
      change (s == t) = true at h
      rw [beq_iff_eq.1 h]
    | query p => cases h
  | query o =>
    cases g with
    | script t => cases h
    | query p => exact NamedMap.isEmpty_eq_of_beq (show o == p from h)

namespace DesignDocument

theorem startsId_iff {id : String} : startsId id ↔ ∃ name, id = idStart ++ name := by
  rw [startsId, List.isPrefixOf_iff_prefix]
  constructor
  · rintro ⟨rest, hrest⟩
    exact ⟨String.ofList rest, String.toList_inj.1 (by simp [← hrest])⟩
  · rintro ⟨name, rfl⟩
    rw [String.toList_append]
    exact List.prefix_append _ _

theorem startsId_fullId (id : String) : startsId (fullId id) = true := by
  rw [fullId]
  split
  · assumption
  · exact startsId_iff.2 ⟨id, rfl⟩

theorem fullId_fullId (id : String) : fullId (fullId id) = fullId id :=
  if_pos (startsId_fullId id)

theorem namesDocument_iff {id : String} :
    namesDocument id ↔ ∃ name, name ≠ "" ∧ id = idStart ++ name := by
  rw [namesDocument, Bool.and_eq_true, startsId_iff, bne_iff_ne]
  constructor
  · rintro ⟨⟨name, rfl⟩, hne⟩
    exact ⟨name, fun h ↦ hne (by rw [h, String.append_empty]), rfl⟩
  · rintro ⟨name, hname, rfl⟩
    exact ⟨⟨name, rfl⟩, fun h ↦ hname (by simpa using congrArg String.toList h)⟩

/-- Only the empty id and the bare beginning do not lead to a name. -/
theorem namesDocument_fullId_iff {id : String} :
    namesDocument (fullId id) ↔ ¬ (id = "" ∨ id = idStart) := by
  rw [namesDocument, startsId_fullId, Bool.true_and, bne_iff_ne, not_iff_not, fullId]
  split
  · next h =>
    refine ⟨.inr, ?_⟩
    rintro (rfl | rfl)
    · exact absurd h (by decide)
    · rfl
  · next h =>
    constructor
    · intro he
      exact .inl (by simpa using congrArg String.toList he)
    · rintro (rfl | rfl)
      · rfl
      · exact absurd (by decide) h

theorem validate_eq_ok_iff {d : DesignDocument} : d.validate = .ok () ↔ d.defect? = none := by
  rw [validate]
  cases d.defect? <;> simp

theorem validate_eq_error_iff {d : DesignDocument} {e : DesignError} :
    d.validate = .error e ↔ ∃ x, d.defect? = some x ∧ x.error = e := by
  rw [validate]
  cases d.defect? <;> simp

section

variable {α : Type} {place : String}

theorem nameDefect?_eq_none_iff {m : Option (NamedMap α)} :
    nameDefect? place m = none ↔ ∀ name ∈ (m.getD .empty).names, ¬ Text.isBlankText name := by
  cases m <;> simp [nameDefect?]

end

theorem mapDefect?_eq_none_iff {d : DesignDocument} :
    d.mapDefect? = none ↔ ∀ m ∈ d.views, ∀ p ∈ m.entries, ¬ p.2.map.isEmpty := by
  rw [mapDefect?]
  cases d.views <;> simp

theorem targetDefect?_eq_none_iff {d : DesignDocument} :
    d.targetDefect? = none ↔ ∀ l ∈ d.rewrites, ∀ r ∈ l, ¬ r.target.isEmpty := by
  rw [targetDefect?]
  cases d.rewrites <;> simp

theorem idDefect?_eq_none_iff {d : DesignDocument} :
    d.idDefect? = none ↔ namesDocument d.id := by
  rw [idDefect?]
  split <;> simp_all

theorem defect?_eq_none_iff {d : DesignDocument} :
    d.defect? = none ↔ d.idDefect? = none ∧
      (∀ s : NamedSection, nameDefect? s.key (s.entries? d) = none) ∧
      d.mapDefect? = none ∧ d.targetDefect? = none := by
  have hnames : (∀ s : NamedSection, nameDefect? s.key (s.entries? d) = none) ↔
      nameDefect? "views" d.views = none ∧ nameDefect? "indexes" d.indexes = none ∧
      nameDefect? "filters" d.filters = none ∧ nameDefect? "shows" d.shows = none ∧
      nameDefect? "lists" d.lists = none ∧ nameDefect? "updates" d.updates = none ∧
      nameDefect? "fulltext" d.fulltext = none :=
    ⟨fun h ↦ ⟨h .views, h .indexes, h .filters, h .shows, h .lists, h .updates, h .fulltext⟩,
      fun ⟨_, _, _, _, _, _, _⟩ s ↦ by cases s <;> assumption⟩
  rw [hnames]
  simp [defect?, and_assoc]

/-- Where no name is blank, only the id, the views and the rewrite rules are left to be wrong. -/
theorem defect?_of_names {d : DesignDocument}
    (h : ∀ s : NamedSection, nameDefect? s.key (s.entries? d) = none) :
    d.defect? = d.idDefect?.or (d.mapDefect?.or d.targetDefect?) := by
  have hviews : nameDefect? "views" d.views = none := h .views
  have hindexes : nameDefect? "indexes" d.indexes = none := h .indexes
  have hfilters : nameDefect? "filters" d.filters = none := h .filters
  have hshows : nameDefect? "shows" d.shows = none := h .shows
  have hlists : nameDefect? "lists" d.lists = none := h .lists
  have hupdates : nameDefect? "updates" d.updates = none := h .updates
  have hfulltext : nameDefect? "fulltext" d.fulltext = none := h .fulltext
  rw [defect?, hviews, hindexes, hfilters, hshows, hlists, hupdates, hfulltext]
  cases d.idDefect? <;> cases d.mapDefect? <;> cases d.targetDefect? <;> rfl

theorem nameDefect?_eq_none_of_beq {α : Type} [BEq α] {place : String} {m n : Option (NamedMap α)}
    (h : m == n) (hn : nameDefect? place n = none) : nameDefect? place m = none := by
  rw [nameDefect?_eq_none_iff] at hn ⊢
  intro name hname
  cases m with
  | none => cases hname
  | some s =>
    obtain ⟨t, ht, hst⟩ := exists_mem_of_option_beq h (Option.mem_some_self s)
    cases ht
    exact hn name (NamedMap.names_subset_of_beq hst hname)

variable {d e : DesignDocument}

theorem mapDefect?_eq_none_of_beq (h : d.views == e.views) (he : e.mapDefect? = none) :
    d.mapDefect? = none := by
  rw [mapDefect?_eq_none_iff] at he ⊢
  intro m hm p hp
  obtain ⟨n, hn, hmn⟩ := exists_mem_of_option_beq h hm
  obtain ⟨v, hv, hpv⟩ := NamedMap.exists_mem_of_beq hmn hp
  rw [MapFunction.isEmpty_eq_of_beq (View.beq_iff.1 hpv).1]
  exact he n hn _ hv

theorem targetDefect?_eq_none_of_beq (h : d.rewrites == e.rewrites)
    (he : e.targetDefect? = none) : d.targetDefect? = none := by
  rw [targetDefect?_eq_none_iff] at he ⊢
  intro l hl r hr
  obtain ⟨m, hm, hlm⟩ := exists_mem_of_option_beq h hl
  obtain ⟨s, hs, hrs⟩ := exists_mem_of_list_beq hlm hr
  rw [beq_iff_eq.1 (RewriteRule.beq_iff.1 hrs).2.1]
  exact he m hm s hs

theorem defect?_eq_none_of_contentEq (h : d.contentEq e) (he : e.defect? = none) :
    d.defect? = none := by
  obtain ⟨hid, -, -, hviews, hindexes, hfilters, hshows, hlists, hupdates, -, hrewrites,
    hfulltext, -⟩ := beq_iff.1 h
  obtain ⟨hid', hnames, hmap, htarget⟩ := defect?_eq_none_iff.1 he
  refine defect?_eq_none_iff.2 ⟨?_, fun s ↦ ?_, mapDefect?_eq_none_of_beq hviews hmap,
    targetDefect?_eq_none_of_beq hrewrites htarget⟩
  · rw [idDefect?_eq_none_iff] at hid' ⊢
    rwa [show d.id = e.id from beq_iff_eq.1 hid]
  · have hname := hnames s
    cases s with
    | views => exact nameDefect?_eq_none_of_beq hviews hname
    | indexes => exact nameDefect?_eq_none_of_beq hindexes hname
    | filters => exact nameDefect?_eq_none_of_beq hfilters hname
    | shows => exact nameDefect?_eq_none_of_beq hshows hname
    | lists => exact nameDefect?_eq_none_of_beq hlists hname
    | updates => exact nameDefect?_eq_none_of_beq hupdates hname
    | fulltext => exact nameDefect?_eq_none_of_beq hfulltext hname

end DesignDocument

end DesignDocs
