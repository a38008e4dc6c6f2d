import DesignDocs.Proofs.Except
import DesignDocs.Selector.Expression
import Mathlib.Data.List.Nodup

namespace DesignDocs

namespace Selector

theorem ConditionFault.kind_error (f : ConditionFault) : f.error.kind = .invalidSelector := by
  cases f <;> rfl

theorem Comparison.operator_injective : Function.Injective operator := by
  intro c d h
  cases c <;> cases d <;> first | rfl | exact absurd h (by decide)

theorem Predicate.nodup_map_operator_iff (ps : List Predicate) :
    (ps.map operator).Nodup ↔ (ps.map comparison).Nodup := by
  have hmap : ps.map operator = (ps.map comparison).map Comparison.operator := by
    rw [List.map_map]
    rfl
  rw [hmap, List.nodup_map_iff Comparison.operator_injective]

/-- Predicates are collected in their order, unless an operator comes again. -/
theorem Predicate.collect_cases (ps : List Predicate) (before : Object) :
    ((before.names ++ ps.map operator).Nodup ∧ ∃ o, collect before ps = .ok o ∧
      o.entries = before.entries ++ ps.map fun p ↦ (p.operator, p.argument)) ∨
    ¬ (before.names ++ ps.map operator).Nodup ∧ ∃ f, collect before ps = .error f := by
  induction ps generalizing before with
  | nil =>
    refine .inl ⟨?_, before, rfl, (List.append_nil _).symm⟩
    rw [List.map_nil, List.append_nil]
    exact before.distinct
  | cons p ps ih =>
    rw [collect]
    split
    · next h =>
      refine .inr ⟨fun hn ↦ ?_, _, rfl⟩
      exact (List.nodup_append.1 hn).2.2 _ h _ List.mem_cons_self rfl
    · next h =>
      have hnames : before.names ++ (p :: ps).map operator =
          (before.push p.operator p.argument h).names ++ ps.map operator := by
        simp
      rw [hnames]
      refine (ih (before.push p.operator p.argument h)).imp_left ?_
      rintro ⟨hn, o, ho, hentries⟩
      refine ⟨hn, o, ho, ?_⟩
      rw [hentries, NamedMap.push, List.append_assoc]
      rfl

namespace Condition

/-- The condition cannot be made: too few values, a divisor that is zero, or predicates that are
missing or repeat an operator. -/
def Flawed : Condition → Prop
  | list _ values => values.length < 2
  | modulo divisor _ => divisor = 0
  | elemMatch predicates => predicates = [] ∨ ¬ (predicates.map Predicate.comparison).Nodup
  | _ => False

def operator : Condition → String
  | compare .eq _ => "$eq"
  | compare .ne _ => "$ne"
  | compare .gt _ => "$gt"
  | compare .gte _ => "$gte"
  | compare .lt _ => "$lt"
  | compare .lte _ => "$lte"
  | present _ => "$exists"
  | typeOf _ => "$type"
  | list .among _ => "$in"
  | list .notAmong _ => "$nin"
  | list .all _ => "$all"
  | size _ => "$size"
  | modulo _ _ => "$mod"
  | regex _ => "$regex"
  | elemMatch _ => "$elemMatch"

def argument : Condition → Json
  | compare _ v => v.json
  | present b => .bool b
  | typeOf name => .string name
  | list _ values => .array (values.map Value.json)
  | size length => .number (.ofUInt64 length)
  | modulo divisor remainder =>
    .array [.number (.ofInt64 divisor), .number (.ofInt64 remainder)]
  | regex pattern => .string pattern
  | elemMatch predicates => .object (predicates.map fun p ↦
      ((compare p.comparison p.argument).operator, p.argument.json))

theorem operator_compare (c : Comparison) (v : Value) : (compare c v).operator = c.operator := by
  cases c <;> rfl

theorem operator_list (op : ListOperator) (values : List Value) :
    (list op values).operator = op.operator := by
  cases op <;> rfl

theorem entry_cases (c : Condition) :
    (c.Flawed ∧ ∃ f, c.entry = .error f) ∨
      ¬ c.Flawed ∧ ∃ v, c.entry = .ok (c.operator, v) ∧ v.json = c.argument := by
  cases c with
  | compare c v => exact .inr ⟨not_false, _, by rw [operator_compare, entry], rfl⟩
  | list op values =>
    rw [entry, operator_list]
    split
    · next h => exact .inl ⟨h, _, rfl⟩
    · next h => exact .inr ⟨h, _, rfl, rfl⟩
  | modulo divisor remainder =>
    rw [entry]
    split
    · next h => exact .inl ⟨h, _, rfl⟩
    · next h => exact .inr ⟨h, _, rfl, rfl⟩
  | elemMatch predicates =>
    cases predicates with
    | nil => exact .inl ⟨.inl rfl, _, rfl⟩
    | cons p ps =>
      have hflawed : (elemMatch (p :: ps)).Flawed ↔ ¬ ((p :: ps).map Predicate.operator).Nodup :=
        (or_iff_right (List.cons_ne_nil p ps)).trans
          (not_congr (Predicate.nodup_map_operator_iff (p :: ps)).symm)
      have hentry : (elemMatch (p :: ps)).entry =
          (Predicate.collect .empty (p :: ps)).map fun o ↦ ("$elemMatch", .object o) := rfl
      rw [hflawed, not_not, hentry]
      obtain ⟨hn, o, ho, hentries⟩ | ⟨hn, f, hf⟩ := Predicate.collect_cases (p :: ps) .empty
      · refine .inr ⟨hn, .object o, by rw [ho]; rfl, ?_⟩
        change Json.object (o.entries.map fun q ↦ (q.1, q.2.json)) = _
        rw [hentries]
        simp [argument, NamedMap.empty, operator_compare, Predicate.operator]
      · exact .inl ⟨hn, f, by rw [hf]; rfl⟩
  | _ => exact .inr ⟨not_false, _, rfl, rfl⟩

end Condition

end Selector

namespace SelectorExpression

@[elab_as_elim]
theorem induct {P : SelectorExpression → Prop} (condition : ∀ field c, P (.condition field c))
    (combine : ∀ c operands, (∀ e ∈ operands, P e) → P (.combine c operands))
    (negate : ∀ operand, P operand → P (.negate operand)) (given : ∀ s, P (.given s))
    (e : SelectorExpression) : P e := by
  refine @SelectorExpression.rec P (fun operands ↦ ∀ e ∈ operands, P e) condition combine negate
    given ?_ ?_ e
  · exact fun _ h ↦ absurd h List.not_mem_nil
  · exact fun e es he hes ↦ List.forall_mem_cons.2 ⟨he, hes⟩

/-- Some condition in the expression cannot be made. -/
inductive Flawed : SelectorExpression → Prop
  | condition {field : String} {c : Selector.Condition} : c.Flawed → Flawed (.condition field c)
  | operand {c : Selector.Connective} {operands : List SelectorExpression}
      {e : SelectorExpression} : e ∈ operands → Flawed e → Flawed (.combine c operands)
  | negated {operand : SelectorExpression} : Flawed operand → Flawed (.negate operand)

mutual

/-- The tree that an expression stands for. -/
def denotation : SelectorExpression → Json
  | condition field c => .object [(field, .object [(c.operator, c.argument)])]
  | combine .and operands => .object [("$and", .array (denotations operands))]
  | combine .or operands => .object [("$or", .array (denotations operands))]
  | combine .nor operands => .object [("$nor", .array (denotations operands))]
  | negate operand => .object [("$not", operand.denotation)]
  | given s => s.toJson

def denotations : List SelectorExpression → List Json
  | [] => []
  | e :: es => e.denotation :: denotations es

end

theorem denotation_combine (c : Selector.Connective) (operands : List SelectorExpression) :
    denotation (combine c operands) = .object [(c.operator, .array (denotations operands))] := by
  cases c <;> rfl

theorem denotations_eq_map (es : List SelectorExpression) : denotations es = es.map denotation := by
  induction es with
  | nil => rfl
  | cons e es ih => rw [denotations, ih, List.map_cons]

theorem buildAll_eq_mapM (es : List SelectorExpression) : buildAll es = es.mapM build := by
  induction es with
  | nil => rfl
  | cons e es ih => rw [buildAll, ih, List.mapM_cons]

section

variable {field : String} {c : Selector.Condition} {connective : Selector.Connective}
  {operand : SelectorExpression} {operands : List SelectorExpression}

theorem flawed_condition_iff : (condition field c).Flawed ↔ c.Flawed :=
  ⟨fun | .condition h => h, .condition⟩

theorem flawed_combine_iff : (combine connective operands).Flawed ↔ ∃ e ∈ operands, e.Flawed :=
  ⟨fun | .operand he h => ⟨_, he, h⟩, fun ⟨_, he, h⟩ ↦ .operand he h⟩

theorem flawed_negate_iff : (negate operand).Flawed ↔ operand.Flawed :=
  ⟨fun | .negated h => h, .negated⟩

end

theorem flawed_or_build (e : SelectorExpression) :
    (e.Flawed ∧ ∃ err, e.build = .error err ∧ err.kind = .invalidSelector) ∨
      ¬ e.Flawed ∧ ∃ s, e.build = .ok s ∧ s.toJson = e.denotation := by
  induction e using induct with
  | condition field c =>
    rw [flawed_condition_iff, build, Selector.condition, denotation]
    refine c.entry_cases.imp ?_ ?_
    · rintro ⟨hc, f, hf⟩
      rw [hf]
      exact ⟨hc, f.error, rfl, f.kind_error⟩
    · rintro ⟨hc, v, hv, hjson⟩
      rw [hv, ← hjson]
      exact ⟨hc, _, rfl, rfl⟩
  | combine c operands ih =>
    rw [flawed_combine_iff, build, buildAll_eq_mapM, denotation_combine, denotations_eq_map]
    -- The operand that stops the others from being built is flawed; where none does, none is.
    cases h : operands.mapM build with
    | error err =>
      obtain ⟨before, e, after, rfl, -, he⟩ := Except.mapM_eq_error_iff.1 h
      have hmem : e ∈ before ++ e :: after := List.mem_append_right before List.mem_cons_self
      obtain ⟨hflawed, err', herr', hkind⟩ | ⟨-, s, hs, -⟩ := ih e hmem
      · cases he.symm.trans herr'
        exact .inl ⟨⟨e, hmem, hflawed⟩, err, rfl, hkind⟩
      · cases he.symm.trans hs
    | ok ss =>
      have hall : List.Forall₂ (fun e s ↦ ¬ e.Flawed ∧ s.toJson = e.denotation) operands ss := by
        refine ((List.forall₂_and_left _ _).2 ⟨ih, Except.mapM_eq_ok_iff.1 h⟩).imp ?_
        rintro e s ⟨⟨-, err, herr, -⟩ | ⟨hsound, s', hs', hjson⟩, hs⟩
        · cases hs.symm.trans herr
        · cases hs.symm.trans hs'
          exact ⟨hsound, hjson⟩
      obtain ⟨hsound, hjson⟩ := (List.forall₂_and_left _ _).1 hall
      have hargs : ss.map Selector.toJson = operands.map denotation := by
        rw [← List.forall₂_eq_eq_eq, List.forall₂_map_left_iff, List.forall₂_map_right_iff]
        exact hjson.flip
      refine .inr ⟨fun ⟨e, he, hflawed⟩ ↦ hsound e he hflawed, Selector.combine c ss, rfl, ?_⟩
      change Json.object [(c.operator, .array ((ss.map Selector.toValue).map Value.json))] = _
      rw [← hargs, List.map_map]
      rfl
  | negate operand ih =>
    rw [flawed_negate_iff, build, denotation]
    refine ih.imp ?_ ?_
    · rintro ⟨hflawed, err, herr, hkind⟩
      rw [herr]
      exact ⟨hflawed, err, rfl, hkind⟩
    · rintro ⟨hflawed, s, hs, hjson⟩
      rw [hs, ← hjson]
      exact ⟨hflawed, s.negate, rfl, rfl⟩
  | given s => exact .inr ⟨nofun, s, rfl, rfl⟩

theorem build_iff (e : SelectorExpression) :
    ((∃ err, e.build = .error err ∧ err.kind = .invalidSelector) ↔ e.Flawed) ∧
      ((∃ s, e.build = .ok s ∧ s.toJson = e.denotation) ↔ ¬ e.Flawed) := by
  obtain ⟨hflawed, err, herr, hkind⟩ | ⟨hsound, s, hs, hjson⟩ := e.flawed_or_build
  · refine ⟨iff_of_true ⟨err, herr, hkind⟩ hflawed, iff_of_false ?_ (not_not_intro hflawed)⟩
    rintro ⟨s, hs, -⟩
    cases herr.symm.trans hs
  · refine ⟨iff_of_false ?_ hsound, iff_of_true ⟨s, hs, hjson⟩ hsound⟩
    rintro ⟨err, herr, -⟩
    cases hs.symm.trans herr

/-- The two bounds stand in the order in which they are given. -/
example : ∃ s, build (.condition "scores" (.elemMatch [⟨.gte, .number (.ofUInt64 80)⟩,
    ⟨.lt, .number (.ofUInt64 85)⟩])) = .ok s ∧
      s.toJson = .object [("scores", .object [("$elemMatch", .object
        [("$gte", .number (.ofUInt64 80)), ("$lt", .number (.ofUInt64 85))])])] :=
  ⟨_, rfl, rfl⟩

end SelectorExpression

end DesignDocs
