import Scriptlet.Argument

/-!
# What the arguments of a call are matched to

Matching deals the arguments out: a parameter gets nothing or one argument that fits it, and an
argument that was given is gone for the other parameters (`Dealt`).  Where all names are distinct
there is a direct description of each slot (`slotOf`): the argument of the parameter's name, or else
the next unnamed argument that is left for it.  From it follows which changes of a call change
nothing (`bind_meets_description`).

The algorithm is that of `Invoke` in §4.5 of the specification, and what is said of calls that
differ in the order of their arguments covers the calls of `Sub` in its §8.
-/

namespace Scriptlet.Argument

/-! ## 1. Taking one argument -/

/-- Nothing is taken if no argument has the property, and otherwise the first one that has it. -/
theorem takeFirst?_cases (q : Argument → Bool) (args : List Argument) :
    ((∀ a ∈ args, q a = false) ∧ takeFirst? q args = none) ∨
    ∃ before a after, args = before ++ a :: after ∧ (∀ b ∈ before, q b = false) ∧ q a = true ∧
      takeFirst? q args = some (a.value, before ++ after) := by
  induction args with
  | nil => exact .inl ⟨by simp, rfl⟩
  | cons a args ih =>
    by_cases ha : q a = true
    · exact .inr ⟨[], a, args, rfl, by simp, ha, by simp [takeFirst?, ha]⟩
    · rw [Bool.not_eq_true] at ha
      rcases ih with ⟨hall, hnone⟩ | ⟨before, b, after, rfl, hbefore, hb, hsome⟩
      · left
        constructor
        · intro b hb
          rcases List.mem_cons.1 hb with rfl | hb
          · exact ha
          · exact hall b hb
        · simp [takeFirst?, ha, hnone]
      · right
        refine ⟨a :: before, b, after, rfl, ?_, hb, by simp [takeFirst?, ha, hsome]⟩
        intro c hc
        rcases List.mem_cons.1 hc with rfl | hc
        · exact ha
        · exact hbefore c hc

/-- The first pass at one parameter: no argument has its name, or the first one that has it is taken
out. -/
theorem bindNamed_cons (p : String) (ps : List String) (args : List Argument) :
    ((∀ a ∈ args, a.name ≠ some p) ∧
      bindNamed (p :: ps) args = (none :: (bindNamed ps args).1, (bindNamed ps args).2)) ∨
    ∃ before a after, args = before ++ a :: after ∧ a.name = some p ∧ bindNamed (p :: ps) args =
      (some a.value :: (bindNamed ps (before ++ after)).1, (bindNamed ps (before ++ after)).2) := by
  rcases takeFirst?_cases (·.name = some p) args with ⟨hall, hnone⟩ | ⟨before, a, after, hargs,
    -, ha, hsome⟩
  · left
    exact ⟨fun a ha => of_decide_eq_false (hall a ha), by simp [bindNamed, hnone]⟩
  · right
    exact ⟨before, a, after, hargs, of_decide_eq_true ha, by simp [bindNamed, hsome]⟩

/-- The second pass at one gap: no argument is unnamed or of its name, or the first such one is
taken out. -/
theorem bindLeft_none_cons (p : String) (ps : List String) (slots : List (Option Value))
    (args : List Argument) :
    ((∀ a ∈ args, a.name ≠ none ∧ a.name ≠ some p) ∧
      bindLeft (p :: ps) (none :: slots) args = none :: bindLeft ps slots args) ∨
    ∃ before a after, args = before ++ a :: after ∧
      (∀ b ∈ before, b.name ≠ none ∧ b.name ≠ some p) ∧ (a.name = none ∨ a.name = some p) ∧
      bindLeft (p :: ps) (none :: slots) args =
        some a.value :: bindLeft ps slots (before ++ after) := by
  rcases takeFirst?_cases (fun a => a.name = none || a.name = some p) args with
    ⟨hall, hnone⟩ | ⟨before, a, after, hargs, hbefore, ha, hsome⟩
  · left
    exact ⟨fun a ha => by simpa using hall a ha, by simp [bindLeft, hnone]⟩
  · right
    exact ⟨before, a, after, hargs, fun b hb => by simpa using hbefore b hb, by simpa using ha,
      by simp [bindLeft, hsome]⟩

/-! ## 2. Dealing

Binding deals out the arguments: each one goes to one slot or is left over. -/

/-- The arguments are dealt out to the parameters, in the order of the parameters, and `left` stay
over.  A parameter gets nothing, or takes an argument without a name or with its own name. -/
inductive Dealt : (params : List String) → (args : List Argument) → List (Option Value) →
    (left : List Argument) → Prop
  | nil {args left : List Argument} : args.Perm left → Dealt [] args [] left
  | none {p : String} {ps : List String} {args left : List Argument} {slots : List (Option Value)} :
      Dealt ps args slots left → Dealt (p :: ps) args (none :: slots) left
  | some {p : String} {ps : List String} {a : Argument} {rest args left : List Argument}
      {slots : List (Option Value)} :
      a.name = .none ∨ a.name = .some p → (a :: rest).Perm args → Dealt ps rest slots left →
      Dealt (p :: ps) args (.some a.value :: slots) left

namespace Dealt

variable {params ps : List String} {args left : List Argument} {slots : List (Option Value)}

theorem length_eq (h : Dealt params args slots left) : slots.length = params.length := by
  induction h with
  | nil _ => rfl
  | none _ ih | some _ _ _ ih => simp [ih]

/-- What stays over could be taken away beforehand. -/
theorem take_left {a : Argument} {less : List Argument} (h : Dealt params args slots left)
    (ha : left.Perm (a :: less)) :
    ∃ rest, (a :: rest).Perm args ∧ Dealt params rest slots less := by
  induction h with
  | nil hargs => exact ⟨less, (hargs.trans ha).symm, .nil (.refl less)⟩
  | none _ ih =>
    obtain ⟨rest, hrest, hdealt⟩ := ih ha
    exact ⟨rest, hrest, .none hdealt⟩
  -- The argument `b` that the first parameter takes stays in front of `a`, which is taken out of
  -- what is left to the others.
  | @some p ps b rest args left slots hb hargs _ ih =>
    obtain ⟨rest', hrest', hdealt⟩ := ih ha
    refine ⟨b :: rest', ?_, .some hb (.refl _) hdealt⟩
    exact ((List.Perm.swap b a rest').trans (hrest'.cons b)).trans hargs

/-- Matching by position deals, since the arguments without a name fit every parameter. -/
theorem positional (hargs : ∀ a ∈ args, a.name = .none) :
    ∃ left, Dealt params args (bindPositional params args) left := by
  induction params generalizing args with
  | nil => exact ⟨args, .nil (.refl args)⟩
  | cons p ps ih =>
    cases args with
    | nil =>
      obtain ⟨left, hleft⟩ := ih hargs
      exact ⟨left, .none hleft⟩
    | cons a args =>
      obtain ⟨left, hleft⟩ := ih fun b hb => hargs b (List.mem_cons_of_mem a hb)
      exact ⟨left, .some (.inl (hargs a List.mem_cons_self)) (.refl _) hleft⟩

/-- The first pass deals by name. -/
theorem named (params : List String) (args : List Argument) :
    Dealt params args (bindNamed params args).1 (bindNamed params args).2 := by
  induction params generalizing args with
  | nil => exact .nil (.refl args)
  | cons p ps ih =>
    rcases bindNamed_cons p ps args with ⟨-, heq⟩ | ⟨before, a, after, rfl, ha, heq⟩
    · rw [heq]
      exact .none (ih args)
    · rw [heq]
      exact .some (.inr ha) List.perm_middle.symm (ih (before ++ after))

/-- The second pass deals out what the first one left over. -/
theorem fill (h : Dealt params args slots left) :
    ∃ less, Dealt params args (bindLeft params slots left) less := by
  induction params generalizing args slots left with
  | nil =>
    cases h with
    | nil hargs => exact ⟨left, .nil hargs⟩
  | cons p ps ih =>
    cases h with
    | some ha hargs h =>
      obtain ⟨less, hless⟩ := ih h
      exact ⟨less, .some ha hargs hless⟩
    | @none _ _ _ _ slots h =>
      rcases bindLeft_none_cons p ps slots left with ⟨-, heq⟩ | ⟨before, a, after, rfl, -, ha, heq⟩
      · rw [heq]
        obtain ⟨less, hless⟩ := ih h
        exact ⟨less, .none hless⟩
      · rw [heq]
        -- What the gap takes was left over by the first pass, so that pass deals without it just as
        -- well.
        obtain ⟨rest, hrest, hdealt⟩ := h.take_left List.perm_middle
        obtain ⟨less, hless⟩ := ih hdealt
        exact ⟨less, .some ha hrest hless⟩

end Dealt

/-- However a call is matched, its arguments are dealt out. -/
theorem exists_dealt_bind (params : List String) (args : List Argument) :
    ∃ left, Dealt params args (bind params args) left := by
  unfold bind
  split
  · next hunnamed =>
    exact Dealt.positional fun a ha =>
      Option.isNone_iff_eq_none.1 (List.all_eq_true.1 hunnamed a ha)
  · exact (Dealt.named params args).fill

/-! ## 3. Calls without names -/

theorem bindNamed_of_unnamed {args : List Argument} (hargs : ∀ a ∈ args, a.name = none)
    (params : List String) :
    bindNamed params args = (params.map fun _ => none, args) := by
  induction params with
  | nil => rfl
  | cons p ps ih =>
    rcases bindNamed_cons p ps args with ⟨-, heq⟩ | ⟨before, a, after, rfl, ha, -⟩
    · rw [heq, ih]
      rfl
    · rw [hargs a (by simp)] at ha
      cases ha

theorem bindLeft_of_unnamed {args : List Argument} (hargs : ∀ a ∈ args, a.name = none)
    (params : List String) :
    bindLeft params (params.map fun _ => none) args = bindPositional params args := by
  induction params generalizing args with
  | nil => rfl
  | cons p ps ih =>
    cases args with
    | nil => exact congrArg (none :: ·) (ih hargs)
    | cons a args =>
      have ha : a.name = none := hargs a List.mem_cons_self
      have hrest := ih fun b hb => hargs b (List.mem_cons_of_mem a hb)
      have hfirst : takeFirst? (fun b => b.name = none || b.name = some p) (a :: args) =
          some (a.value, args) := by
        simp [takeFirst?, ha]
      rw [List.map_cons, bindLeft, hfirst]
      exact congrArg (some a.value :: ·) hrest

/-- Without names, both passes together match by position. -/
theorem bindByName_of_unnamed {args : List Argument} (hargs : ∀ a ∈ args, a.name = none)
    (params : List String) :
    bindByName params args = bindPositional params args := by
  unfold bindByName
  rw [bindNamed_of_unnamed hargs]
  exact bindLeft_of_unnamed hargs params

/-- So matching is by the two passes in every case. -/
theorem bind_eq_bindByName (params : List String) (args : List Argument) :
    bind params args = bindByName params args := by
  unfold bind
  split
  · next hunnamed =>
    rw [bindByName_of_unnamed]
    exact fun a ha => Option.isNone_iff_eq_none.1 (List.all_eq_true.1 hunnamed a ha)
  · rfl

/-! ## 4. Slots

What a slot gets is described without the order in which binding goes about it. -/

def named? (p : String) (args : List Argument) : Option Argument := args.find? (·.name = some p)

def unnamed (args : List Argument) : List Argument := args.filter (·.name = none)

/-- How many of the parameters have no argument of their name. -/
def vacancies (params : List String) (args : List Argument) : Nat :=
  params.countP fun p => (named? p args).isNone

/-- What the parameter `p` gets, `i` parameters behind the first one: the argument of its name, or
else the unnamed argument that is left to it by the parameters in front of it. -/
def slotOf (params : List String) (args : List Argument) (i : Nat) (p : String) : Option Value :=
  match named? p args with
  | some a => some a.value
  | none => ((unnamed args)[vacancies (params.take i) args]?).map (·.value)

def names (args : List Argument) : List String := args.filterMap (·.name)

theorem named?_eq_none {p : String} {args : List Argument} (h : ∀ a ∈ args, a.name ≠ some p) :
    named? p args = none :=
  List.find?_eq_none.2 fun a ha => by simpa using h a ha

/-- Where the given names are distinct, a name has one argument at most. -/
theorem named?_eq_some {p : String} {args : List Argument} (hnames : (names args).Nodup)
    {a : Argument} (ha : a ∈ args) (hp : a.name = some p) : named? p args = some a := by
  induction args with
  | nil => cases ha
  | cons b args ih =>
    by_cases hb : b.name = some p
    · rcases List.mem_cons.1 ha with rfl | ha
      · simp [named?, hb]
      -- A second argument of the name would be a second occurrence among the names.
      · have hmem : p ∈ names args := List.mem_filterMap.2 ⟨a, ha, hp⟩
        simp [names, hb] at hnames
        exact absurd hmem (by simpa [names] using hnames.1)
    · have ha : a ∈ args := by
        rcases List.mem_cons.1 ha with rfl | ha
        · exact absurd hp hb
        · exact ha
      have hrest : (names args).Nodup :=
        hnames.sublist ((List.sublist_cons_self b args).filterMap _)
      simpa [named?, hb] using ih hrest ha

/-- The first pass gives each parameter the argument of its name and leaves the others. -/
theorem bindNamed_eq {params : List String} {args : List Argument} (hparams : params.Nodup)
    (hnames : (names args).Nodup) :
    (bindNamed params args).1 = params.map (fun p => (named? p args).map (·.value)) ∧
    unnamed (bindNamed params args).2 = unnamed args ∧
    ∀ a ∈ (bindNamed params args).2, a ∈ args ∧ ∀ p ∈ params, a.name ≠ some p := by
  induction params generalizing args with
  | nil => exact ⟨rfl, rfl, fun a ha => ⟨ha, by simp⟩⟩
  | cons p ps ih =>
    obtain ⟨hp, hps⟩ := List.nodup_cons.1 hparams
    rcases bindNamed_cons p ps args with ⟨hnone, heq⟩ | ⟨before, a, after, rfl, ha, heq⟩
    · obtain ⟨hslots, hunnamed, hleft⟩ := ih hps hnames
      rw [heq]
      refine ⟨?_, hunnamed, ?_⟩
      · simp [hslots, named?_eq_none hnone]
      · intro b hb
        obtain ⟨hmem, hother⟩ := hleft b hb
        exact ⟨hmem, List.forall_mem_cons.2 ⟨hnone b hmem, hother⟩⟩
    · have hsub : (before ++ after).Sublist (before ++ a :: after) :=
        (List.sublist_cons_self a after).append_left before
      have hrest : (names (before ++ after)).Nodup := hnames.sublist (hsub.filterMap _)
      have hsplit : (names before ++ p :: names after).Nodup := by
        simpa [names, List.filterMap_append, List.filterMap_cons, ha] using hnames
      -- The names are distinct, so with `a` the last argument of the name `p` is gone.
      have hgone : ∀ b ∈ before ++ after, b.name ≠ some p := by
        intro b hb hname
        have hpb : p ∈ names before ++ names after := by
          rw [names, names, ← List.filterMap_append]
          exact List.mem_filterMap.2 ⟨b, hb, hname⟩
        exact (List.nodup_cons.1 (List.perm_middle.nodup_iff.1 hsplit)).1 hpb
      obtain ⟨hslots, hunnamed, hleft⟩ := ih hps hrest
      rw [heq]
      refine ⟨?_, ?_, ?_⟩
      · have hother : ∀ q ∈ ps, named? q (before ++ after) = named? q (before ++ a :: after) := by
          intro q hq
          have hqp : ¬ some p = some q := by
            rintro ⟨⟩
            exact hp hq
          simp [named?, List.find?_append, ha, hqp]
        simp only [hslots, List.map_cons, named?_eq_some hnames (a := a) (by simp) ha,
          Option.map_some]
        congr 1
        apply List.map_congr_left
        intro q hq
        rw [hother q hq]
      · rw [hunnamed]
        simp [unnamed, List.filter_append, ha]
      · intro b hb
        obtain ⟨hmem, hother⟩ := hleft b hb
        exact ⟨hsub.subset hmem, List.forall_mem_cons.2 ⟨hgone b hmem, hother⟩⟩

/-- The second pass fills the gaps with the unnamed arguments in order, if no other argument
fits. -/
theorem getElem?_bindLeft {params : List String} {slots : List (Option Value)}
    {args : List Argument} (hlength : slots.length = params.length)
    (hother : ∀ a ∈ args, ∀ p ∈ params, a.name ≠ some p) (i : Nat) :
    (bindLeft params slots args)[i]? =
      slots[i]?.map fun slot =>
        slot.or (((unnamed args)[(slots.take i).count none]?).map (·.value)) := by
  induction params generalizing slots args i with
  | nil =>
    obtain rfl := List.eq_nil_of_length_eq_zero hlength
    rfl
  | cons p ps ih =>
    obtain ⟨slot, slots, rfl⟩ := List.exists_cons_of_length_eq_add_one hlength
    have hrest : slots.length = ps.length := by simpa using hlength
    have hps : ∀ a ∈ args, ∀ q ∈ ps, a.name ≠ some q :=
      fun a ha q hq => hother a ha q (List.mem_cons_of_mem p hq)
    cases slot with
    | some v =>
      cases i with
      | zero => rfl
      | succ i =>
        simp only [bindLeft, List.getElem?_cons_succ, List.take_succ_cons, ih hrest hps]
        rw [List.count_cons_of_ne (by simp)]
    | none =>
      rcases bindLeft_none_cons p ps slots args with ⟨hnone, heq⟩ | ⟨before, a, after, rfl,
        hbefore, ha, heq⟩
      · have hempty : unnamed args = [] := List.filter_eq_nil_iff.2 fun a ha => by
          simpa using (hnone a ha).1
        rw [heq]
        cases i with
        | zero => simp [hempty]
        | succ i => simp [ih hrest hps, hempty]
      · -- the argument that is taken has no name, so it is the first unnamed one
        have ha : a.name = none := ha.resolve_right (hother a (by simp) p List.mem_cons_self)
        have hfirst : unnamed (before ++ a :: after) = a :: unnamed (before ++ after) := by
          have hempty : before.filter (·.name = none) = [] :=
            List.filter_eq_nil_iff.2 fun b hb => by simpa using (hbefore b hb).1
          simp [unnamed, List.filter_append, hempty, ha]
        have hps : ∀ b ∈ before ++ after, ∀ q ∈ ps, b.name ≠ some q := by
          intro b hb
          apply hps
          rcases List.mem_append.1 hb with hb | hb
          · exact List.mem_append_left _ hb
          · exact List.mem_append_right _ (List.mem_cons_of_mem a hb)
        rw [heq, hfirst]
        cases i with
        | zero => simp
        | succ i => simp [ih hrest hps]

/-- The gaps that the first pass leaves are the vacancies. -/
theorem count_none_map (params : List String) (args : List Argument) :
    (params.map fun p => (named? p args).map (·.value)).count none = vacancies params args := by
  rw [vacancies, List.count_eq_countP, List.countP_map]
  apply List.countP_congr
  intro p _
  simp

/-- Where all names are distinct, every slot is as described. -/
theorem getElem?_bind {params : List String} {args : List Argument} (hparams : params.Nodup)
    (hnames : (names args).Nodup) {i : Nat} {p : String} (hp : params[i]? = some p) :
    (bind params args)[i]? = some (slotOf params args i p) := by
  obtain ⟨hslots, hunnamed, hleft⟩ := bindNamed_eq hparams hnames
  have hlength : (bindNamed params args).1.length = params.length := by simp [hslots]
  rw [bind_eq_bindByName]
  change (bindLeft params (bindNamed params args).1 (bindNamed params args).2)[i]? = _
  rw [getElem?_bindLeft hlength fun a ha => (hleft a ha).2, hunnamed, hslots, List.getElem?_map,
    hp, ← List.map_take, count_none_map]
  simp only [Option.map_some, slotOf]
  cases named? p args <;> rfl

/-! ## 5. Calls that are matched alike

A slot depends on a call through two things only: the argument of each name, and the unnamed
arguments in their order.  Calls that agree in these are matched alike. -/

/-- Two calls are matched alike if their slots are described alike. -/
theorem bind_congr {params : List String} {args args' : List Argument} (hparams : params.Nodup)
    (hnames : (names args).Nodup) (hnames' : (names args').Nodup)
    (hslots : ∀ i p, params[i]? = some p → slotOf params args i p = slotOf params args' i p) :
    bind params args = bind params args' := by
  have hlength : ∀ args, (bind params args).length = params.length := by
    intro args
    obtain ⟨left, hdealt⟩ := exists_dealt_bind params args
    exact hdealt.length_eq
  apply List.ext_getElem?
  intro i
  by_cases hi : i < params.length
  · have hp : params[i]? = some params[i] := List.getElem?_eq_getElem hi
    rw [getElem?_bind hparams hnames hp, getElem?_bind hparams hnames' hp, hslots i _ hp]
  · rw [List.getElem?_eq_none (by rw [hlength]; omega),
      List.getElem?_eq_none (by rw [hlength]; omega)]

theorem vacancies_congr {params : List String} {args args' : List Argument}
    (h : ∀ p ∈ params, named? p args = named? p args') :
    vacancies params args = vacancies params args' := by
  apply List.countP_congr
  intro p hp
  rw [h p hp]

theorem slotOf_congr {params : List String} {args args' : List Argument}
    (hnamed : ∀ p ∈ params, named? p args = named? p args') {i : Nat} {p : String}
    (hp : params[i]? = some p) (hunnamed : named? p args = none →
      (unnamed args)[vacancies (params.take i) args]? =
        (unnamed args')[vacancies (params.take i) args]?) :
    slotOf params args i p = slotOf params args' i p := by
  unfold slotOf
  rw [← hnamed p (List.mem_of_getElem? hp),
    ← vacancies_congr fun q hq => hnamed q (List.mem_of_mem_take hq)]
  split
  · rfl
  · next hnone => rw [hunnamed hnone]

/-- The argument of a name does not depend on the order of the arguments. -/
theorem named?_perm {args args' : List Argument} (hperm : args'.Perm args)
    (hnames : (names args).Nodup) (p : String) :
    named? p args' = named? p args := by
  have hnames' : (names args').Nodup := (hperm.filterMap _).nodup_iff.2 hnames
  by_cases hp : ∃ a ∈ args, a.name = some p
  · obtain ⟨a, ha, hname⟩ := hp
    rw [named?_eq_some hnames ha hname, named?_eq_some hnames' (hperm.mem_iff.2 ha) hname]
  · have hnone : ∀ a ∈ args, a.name ≠ some p := fun a ha hname => hp ⟨a, ha, hname⟩
    rw [named?_eq_none hnone, named?_eq_none fun a ha => hnone a (hperm.mem_iff.1 ha)]

/-- An argument that is no parameter's: its name is not a parameter's, or the unnamed arguments in
front of it are enough for all the parameters that have no argument of their name. -/
def Surplus (params : List String) (before : List Argument) (a : Argument) (after : List Argument) :
    Prop :=
  (∃ name, a.name = some name ∧ name ∉ params) ∨
  (a.name = none ∧ vacancies params (before ++ a :: after) ≤ (unnamed before).length)

theorem Surplus.name_ne {params : List String} {before after : List Argument} {a : Argument}
    (h : Surplus params before a after) : ∀ p ∈ params, a.name ≠ some p := by
  intro p hp hname
  rcases h with ⟨name, ha, hunknown⟩ | ⟨ha, -⟩
  · cases ha.symm.trans hname
    exact hunknown hp
  · cases ha.symm.trans hname

/-- A parameter without an argument of its name is one of the vacancies, behind those in front of
it. -/
theorem vacancies_take_lt {params : List String} {args : List Argument} {i : Nat} {p : String}
    (hp : params[i]? = some p) (hnone : named? p args = none) :
    vacancies (params.take i) args < vacancies params args := by
  have hsplit : params = params.take i ++ p :: params.drop (i + 1) := by
    obtain ⟨_, rfl⟩ := List.getElem?_eq_some_iff.1 hp
    simp
  have hcount := congrArg (fun params => vacancies params args) hsplit
  simp only [vacancies, List.countP_append, List.countP_cons, hnone, Option.isNone_none,
    if_true] at hcount ⊢
  omega

/-- Without an argument that is no parameter's, every slot is described as with it. -/
theorem Surplus.slotOf_eq {params : List String} {before after : List Argument} {a : Argument}
    (h : Surplus params before a after) {i : Nat} {p : String} (hp : params[i]? = some p) :
    slotOf params (before ++ after) i p = slotOf params (before ++ a :: after) i p := by
  have hnamed : ∀ q ∈ params, named? q (before ++ a :: after) = named? q (before ++ after) := by
    intro q hq
    simp [named?, List.find?_append, h.name_ne q hq]
  refine (slotOf_congr hnamed hp fun hnone => ?_).symm
  rcases h with ⟨name, ha, -⟩ | ⟨ha, henough⟩
  · simp [unnamed, List.filter_append, ha]
  -- The slot is filled from the unnamed arguments in front of the surplus one.
  · have hfront := vacancies_take_lt hp hnone
    have hin : vacancies (params.take i) (before ++ a :: after) <
      (unnamed before).length := by omega
    unfold unnamed at hin ⊢
    rw [List.filter_append, List.filter_append, List.getElem?_append_left hin,
      List.getElem?_append_left hin]

/-! ## 6. Matching -/

/-- Matching gives one slot to each parameter and no argument to two of them; without names it is
the same by position and by the two passes.  Where the parameters are distinct and the given names
are, each slot is as described.  So the order of the arguments does not matter beyond that of the
unnamed ones, and neither does an argument that is no parameter's. -/
theorem bind_meets_description (params : List String) (args : List Argument) :
    (bind params args).length = params.length ∧
    (∃ left, Dealt params args (bind params args) left) ∧
    ((∀ a ∈ args, a.name = none) → bindPositional params args = bindByName params args) ∧
    (params.Nodup → (names args).Nodup →
      (∀ i p, params[i]? = some p → (bind params args)[i]? = some (slotOf params args i p)) ∧
      (∀ args', args'.Perm args → unnamed args' = unnamed args →
        bind params args' = bind params args) ∧
      ∀ before a after, args = before ++ a :: after → Surplus params before a after →
        bind params (before ++ after) = bind params args) := by
  obtain ⟨left, hdealt⟩ := exists_dealt_bind params args
  refine ⟨hdealt.length_eq, ⟨left, hdealt⟩,
    fun hunnamed => (bindByName_of_unnamed hunnamed params).symm, ?_⟩
  intro hparams hnames
  refine ⟨fun i p hp => getElem?_bind hparams hnames hp, ?_, ?_⟩
  · intro args' hperm hunnamed
    have hnames' : (Argument.names args').Nodup := (hperm.filterMap _).nodup_iff.2 hnames
    apply bind_congr hparams hnames' hnames
    intro i p hp
    apply slotOf_congr (fun q _ => named?_perm hperm hnames q) hp
    intro _
    rw [hunnamed]
  · rintro before a after rfl hsurplus
    have hsub : (before ++ after).Sublist (before ++ a :: after) :=
      (List.sublist_cons_self a after).append_left before
    apply bind_congr hparams (hnames.sublist (hsub.filterMap _)) hnames
    intro i p hp
    exact hsurplus.slotOf_eq hp

/-- Two unnamed arguments around two named ones, of which one is unknown, and one unnamed argument
too many. -/
theorem bind_mixed_call :
    let params := ["a", "b", "c"]
    let args : List Argument :=
      [⟨none, .bool true⟩, ⟨some "z", .invalid⟩, ⟨some "b", .invalid⟩, ⟨none, .bool false⟩,
        ⟨none, .invalid⟩]
    params.Nodup ∧ (names args).Nodup ∧
    ((bind params args)[0]? = some (some (.bool true)) ∧
      (bind params args)[1]? = some (some .invalid) ∧
      (bind params args)[2]? = some (some (.bool false))) ∧
    bind params [⟨some "b", .invalid⟩, ⟨none, .bool true⟩, ⟨none, .bool false⟩, ⟨none, .invalid⟩,
      ⟨some "z", .invalid⟩] = bind params args ∧
    bind params [⟨none, .bool true⟩, ⟨some "b", .invalid⟩, ⟨none, .bool false⟩,
      ⟨none, .invalid⟩] = bind params args ∧
    bind params [⟨none, .bool true⟩, ⟨some "z", .invalid⟩, ⟨some "b", .invalid⟩,
      ⟨none, .bool false⟩] = bind params args ∧
    bindPositional params [⟨none, .bool true⟩] = bindByName params [⟨none, .bool true⟩] := by
  intro params args
  have hparams : params.Nodup := by decide
  have hnames : (names args).Nodup := by decide
  obtain ⟨-, -, -, hdistinct⟩ := bind_meets_description params args
  obtain ⟨hslots, hreorder, hsurplus⟩ := hdistinct hparams hnames
  refine ⟨hparams, hnames, ?_, ?_, ?_, ?_, ?_⟩
  · exact ⟨hslots 0 "a" rfl, hslots 1 "b" rfl, hslots 2 "c" rfl⟩
  · exact hreorder _ (by decide) rfl
  · exact hsurplus [⟨none, .bool true⟩] ⟨some "z", .invalid⟩ _ rfl (.inl ⟨"z", rfl, by decide⟩)
  · exact hsurplus [⟨none, .bool true⟩, ⟨some "z", .invalid⟩, ⟨some "b", .invalid⟩,
      ⟨none, .bool false⟩] ⟨none, .invalid⟩ [] rfl (.inr ⟨rfl, by decide⟩)
  · exact (bind_meets_description params [⟨none, .bool true⟩]).2.2.1 (by simp)

end Scriptlet.Argument
