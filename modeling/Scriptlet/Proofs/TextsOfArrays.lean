import Mathlib.Algebra.Order.BigOperators.Group.List
import Mathlib.Algebra.Order.Ring.Nat
import Scriptlet.Namespace
import Scriptlet.Proofs.EqualInOrder
import Scriptlet.Proofs.PartialApplication

/-!
# The texts of an array

The text of an array is made of the texts of its elements, and so is what joining it with commas
gives and what it is compared by with a text.  They differ in what counts as open: in its own text
the array is open from the start, so that it is not written out again inside itself.  When it is
joined or compared, it is written out once more before it is left open.

That makes a difference wherever the array is met on the way down, unless it has one element.  To
meet the array inside one of its elements, the element was entered before, so it is open when the
array is written out, and its text is the five characters that stand for an open array.  If it is
the only element, they are the text of the array.  If not, the text is longer than that
(`Walk.length_render_lt`).

Texts of arrays, joining and loose equality are in §4.3 and §4.7 of the specification.
-/

namespace Scriptlet

namespace Walk

variable {σ : Store} {slot : Reader} {n : Nat} {within : List ArrayId} {v w x : Value}
  {a c : ArrayId} {t t' : String}

/-! ## 1. Joined texts

Lengths are counted with one comma for each text, so that the joined text is one shorter than the
sum. -/

theorem eq_map_getD {α β : Type} {g : α → Option β} {xs : List α} {ys : List β} (y : β)
    (h : List.Forall₂ (fun x y => g x = some y) xs ys) : ys = xs.map fun x => (g x).getD y := by
  induction h with
  | nil => rfl
  | cons hx _ ih => rw [List.map_cons, hx, Option.getD_some, ← ih]

theorem texts_of_joinTexts {text : Value → Option String} {separator : String} {vs : List Value}
    (h : joinTexts text separator vs = some t) :
    (∀ v ∈ vs, ∃ u, text v = some u) ∧
      t = separator.intercalate (vs.map fun v => (text v).getD "") := by
  obtain ⟨ts, hts, rfl⟩ := Option.map_eq_some_iff.1 h
  have hall := mapM_eq_some_iff.1 hts
  exact ⟨exists_of_forall₂ hall, congrArg separator.intercalate (eq_map_getD "" hall)⟩

theorem joinTexts_eq {text text' : Value → Option String} {separator : String} {vs : List Value}
    (ht : joinTexts text separator vs = some t) (ht' : joinTexts text' separator vs = some t')
    (h : ∀ v ∈ vs, ∀ u u', text v = some u → text' v = some u' → u = u') : t = t' := by
  obtain ⟨hall, rfl⟩ := texts_of_joinTexts ht
  obtain ⟨hall', rfl⟩ := texts_of_joinTexts ht'
  refine congrArg separator.intercalate (List.map_congr_left fun v hv => ?_)
  obtain ⟨u, hu⟩ := hall v hv
  obtain ⟨u', hu'⟩ := hall' v hv
  rw [hu, hu']
  exact h v hv u u' hu hu'

theorem length_intercalate : ∀ {ts : List String}, ts ≠ [] →
    (",".intercalate ts).length + 1 = (ts.map fun t => t.length + 1).sum
  | [t], _ => by simp
  | t :: u :: ts, _ => by
    have hrest := length_intercalate (List.cons_ne_nil u ts)
    rw [String.intercalate_cons_cons, List.map_cons, List.sum_cons, ← hrest, String.length_append,
      String.length_append]
    have hcomma : ",".length = 1 := rfl
    omega

theorem length_joinTexts {text : Value → Option String} {vs : List Value} (hvs : vs ≠ [])
    (h : joinTexts text "," vs = some t) :
    t.length + 1 = (vs.map fun v => ((text v).getD "").length + 1).sum := by
  obtain ⟨-, rfl⟩ := texts_of_joinTexts h
  rw [length_intercalate (mt List.map_eq_nil_iff.1 hvs), List.map_map]
  rfl

/-- With one text shorter and the others not longer, a joined text is shorter. -/
theorem length_joinTexts_lt {text text' : Value → Option String} {vs : List Value}
    (ht : joinTexts text "," vs = some t) (ht' : joinTexts text' "," vs = some t')
    (hle : ∀ v ∈ vs, ∀ u u', text v = some u → text' v = some u' → u'.length ≤ u.length)
    (hlt : ∃ v ∈ vs, ∀ u u', text v = some u → text' v = some u' → u'.length < u.length) :
    t'.length < t.length := by
  obtain ⟨v, hv, hless⟩ := hlt
  have hvs : vs ≠ [] := List.ne_nil_of_mem hv
  have hall := (texts_of_joinTexts ht).1
  have hall' := (texts_of_joinTexts ht').1
  have hsum : (vs.map fun v => ((text' v).getD "").length + 1).sum <
      (vs.map fun v => ((text v).getD "").length + 1).sum := by
    refine List.sum_lt_sum _ _ (fun x hx => ?_) ⟨v, hv, ?_⟩
    · obtain ⟨u, hu⟩ := hall x hx
      obtain ⟨u', hu'⟩ := hall' x hx
      simpa [hu, hu'] using hle x hx u u' hu hu'
    · obtain ⟨u, hu⟩ := hall v hv
      obtain ⟨u', hu'⟩ := hall' v hv
      simpa [hu, hu'] using hless u u' hu hu'
  rw [← length_joinTexts hvs ht, ← length_joinTexts hvs ht'] at hsum
  omega

/-- Each of several texts is shorter than the joined text. -/
theorem length_lt_joinTexts {text : Value → Option String} {vs : List Value} {u : String}
    (h : joinTexts text "," vs = some t) (hv : v ∈ vs) (hu : text v = some u)
    (hmany : vs.length ≠ 1) :
    u.length < t.length := by
  have hlength := length_joinTexts (List.ne_nil_of_mem hv) h
  obtain ⟨before, after, rfl⟩ := List.append_of_mem hv
  have hpositive : ∀ ws : List Value,
      ws.length ≤ (ws.map fun v => ((text v).getD "").length + 1).sum := by
    intro ws
    simp
  have hbefore := hpositive before
  have hafter := hpositive after
  simp only [List.map_append, List.map_cons, List.sum_append, List.sum_cons, hu,
    Option.getD_some] at hlength
  simp only [List.length_append, List.length_cons] at hmany
  omega

/-! ## 2. Ways into an array

`Enters` follows the walk that writes a text out, with the arrays that are open on the way. -/

/-- A value leads into an array on a way that opens none of the arrays of a list. -/
inductive Enters (σ : Store) (slot : Reader) (a : ArrayId) (within : List ArrayId) : Value → Prop
  | self {v : Value} : resolve slot v = some (.array a) → Enters σ slot a within v
  | item {v x : Value} {c : ArrayId} :
      resolve slot v = some (.array c) → c ∉ within → x ∈ σ.items c →
      Enters σ slot a within x → Enters σ slot a within v

theorem Enters.of_cons (h : Enters σ slot a (c :: within) v) : Enters σ slot a within v := by
  induction h with
  | self h => exact .self h
  | item h hnew hx _ ih => exact .item h (List.not_mem_of_not_mem_cons hnew) hx ih

/-- A way that opens an array can be cut down to what follows after it has opened it last. -/
theorem Enters.avoid (h : Enters σ slot a within v) (c : ArrayId) :
    Enters σ slot a (c :: within) v ∨ ∃ x ∈ σ.items c, Enters σ slot a (c :: within) x := by
  induction h with
  | self h => exact .inl (.self h)
  | @item v x d h hnew hx _ ih =>
    rcases ih with ih | ih
    · by_cases hd : d = c
      · subst hd
        exact .inr ⟨x, hx, ih⟩
      · exact .inl (.item h (by simp [hd, hnew]) hx ih)
    · exact .inr ih

theorem Enters.congr (h : Enters σ slot a within v) (hw : resolve slot w = resolve slot v) :
    Enters σ slot a within w := by
  cases h with
  | self h => exact .self (hw.trans h)
  | item h hnew hx hrest => exact .item (hw.trans h) hnew hx hrest

/-- A way into another array goes on from one of the elements, with the array open. -/
theorem Enters.exists_item (h : Enters σ slot a within (.array c)) (hne : c ≠ a) :
    c ∉ within ∧ ∃ x ∈ σ.items c, Enters σ slot a (c :: within) x := by
  cases h with
  | self h =>
    cases h
    exact absurd rfl hne
  | @item _ x _ h hnew hx hrest =>
    cases h
    refine ⟨hnew, ?_⟩
    -- The way may come back to `c`, and is then cut.
    rcases hrest.avoid c with hrest | hrest
    · exact ⟨x, hx, hrest⟩
    · exact hrest

/-- A value is met in the text of an element of an array: it is the element, or the element is
open. -/
def MetInside (σ : Store) (slot : Reader) (a : ArrayId) (within : List ArrayId) (v : Value) :
    Prop :=
  ∃ e ∈ σ.items a, resolve slot e = resolve slot v ∨ ∃ c ∈ within, resolve slot e = some (.array c)

theorem MetInside.congr (h : MetInside σ slot a within v) (hw : resolve slot w = resolve slot v) :
    MetInside σ slot a within w := by
  obtain ⟨e, he, hv | hopen⟩ := h
  · exact ⟨e, he, .inl (hv.trans hw.symm)⟩
  · exact ⟨e, he, .inr hopen⟩

/-- Once an array is opened, the element is open. -/
theorem MetInside.exists_open (h : MetInside σ slot a within (.array c)) :
    ∃ e ∈ σ.items a, ∃ d ∈ c :: within, resolve slot e = some (.array d) := by
  obtain ⟨e, he, hv | ⟨d, hd, hopen⟩⟩ := h
  · exact ⟨e, he, c, by simp, hv⟩
  · exact ⟨e, he, d, by simp [hd], hopen⟩

theorem MetInside.item (h : MetInside σ slot a within (.array c)) (x : Value) :
    MetInside σ slot a (c :: within) x := by
  obtain ⟨e, he, hopen⟩ := h.exists_open
  exact ⟨e, he, .inr hopen⟩

/-! ## 3. With one more array open

Writing a value out with and without `a` open at the far end, as long as an element of `a` is met on
the way. -/

theorem render_open (h : c ∈ within) : render σ slot (n + 1) within (.array c) = some "[...]" :=
  if_pos h

theorem render_closed (h : c ∉ within) : render σ slot (n + 1) within (.array c) =
    joinTexts (render σ slot n (c :: within)) "," (σ.items c).toList := if_neg h

theorem render_of_open : ∀ {n : Nat} {v : Value}, resolve slot v = some (.array c) → c ∈ within →
    render σ slot n within v = some t → t = "[...]" := by
  intro n v hv hopen ht
  cases n with
  | zero => cases ht
  | succ n =>
    cases v with
    | array d =>
      cases hv
      rw [render_open hopen] at ht
      exact (Option.some.inj ht).symm
    | reference r =>
      simp only [render, hv, Option.bind_eq_bind, Option.bind_some] at ht
      cases n with
      | zero => cases ht
      | succ n =>
        rw [render_open hopen] at ht
        exact (Option.some.inj ht).symm
    | _ => cases hv

theorem MetInside.exists_mark (h : MetInside σ slot a within (.array a))
    (ht : joinTexts (render σ slot n (a :: within)) "," (σ.items a).toList = some t) :
    ∃ e ∈ (σ.items a).toList, render σ slot n (a :: within) e = some "[...]" := by
  obtain ⟨e, he, d, hd, hresolve⟩ := h.exists_open
  rw [← Array.mem_toList_iff] at he
  obtain ⟨u, hu⟩ := (texts_of_joinTexts ht).1 e he
  obtain rfl := render_of_open hresolve hd hu
  exact ⟨e, he, hu⟩

/-- An array that is not met, or that has one element, can be open or not. -/
theorem render_append (n : Nat) :
    ∀ {within : List ArrayId} {v : Value} {t t' : String}, a ∉ within →
      MetInside σ slot a within v → (σ.items a).size = 1 ∨ ¬ Enters σ slot a within v →
      render σ slot n within v = some t → render σ slot n (within ++ [a]) v = some t' → t = t' := by
  induction n with
  | zero =>
    intro within v t t' _ _ _ ht
    cases ht
  | succ n ih =>
    intro within v t t' hnew hmet hcalm ht ht'
    cases v with
    | array c =>
      by_cases hopen : c ∈ within
      · rw [render_open hopen] at ht
        rw [render_open (List.mem_append_left [a] hopen)] at ht'
        exact Option.some.inj (ht.symm.trans ht')
      by_cases hself : c = a
      · -- The only element is open.
        subst hself
        rw [render_closed hopen] at ht
        rw [render_open (by simp)] at ht'
        have hsize : (σ.items c).size = 1 := hcalm.resolve_right (not_not_intro (.self rfl))
        obtain ⟨e, he, hmark⟩ := hmet.exists_mark ht
        obtain ⟨x, hx⟩ := List.length_eq_one_iff.1 (Array.length_toList.trans hsize)
        rw [hx] at he ht
        obtain rfl := List.mem_singleton.1 he
        obtain ⟨-, rfl⟩ := texts_of_joinTexts ht
        rw [List.map_singleton, String.intercalate_singleton, hmark]
        exact Option.some.inj ht'
      · rw [render_closed hopen] at ht
        rw [render_closed (by simp [hopen, hself])] at ht'
        refine joinTexts_eq ht ht' fun x hx u u' hu hu' => ?_
        have hcalm' : (σ.items a).size = 1 ∨ ¬ Enters σ slot a (c :: within) x :=
          hcalm.imp_right (mt fun h => .item rfl hopen (Array.mem_toList_iff.1 hx) h.of_cons)
        exact ih (by simp [hnew, Ne.symm hself]) (hmet.item x) hcalm' hu hu'
    | reference r =>
      simp only [render, Option.bind_eq_bind, Option.bind_eq_some_iff] at ht ht'
      obtain ⟨w, hw, ht⟩ := ht
      obtain ⟨w', hw', ht'⟩ := ht'
      cases hw.symm.trans hw'
      have hsame := resolve_resolved hw
      exact ih hnew (hmet.congr hsame) (hcalm.imp_right (mt fun h => h.congr hsame.symm)) ht ht'
    | _ =>
      cases ht
      cases ht'
      rfl

/-- If the text of every value that leads into an array is longer with the array closed, so is the
joined text. -/
theorem length_joined_lt {vs : List Value} (hnew : a ∉ within)
    (hmet : ∀ y ∈ vs, MetInside σ slot a within y) (henters : ∃ x ∈ vs, Enters σ slot a within x)
    (hless : ∀ y ∈ vs, ∀ u u', Enters σ slot a within y → render σ slot n within y = some u →
      render σ slot n (within ++ [a]) y = some u' → u'.length < u.length)
    (ht : joinTexts (render σ slot n within) "," vs = some t)
    (ht' : joinTexts (render σ slot n (within ++ [a])) "," vs = some t') :
    t'.length < t.length := by
  obtain ⟨x, hx, hx'⟩ := henters
  refine length_joinTexts_lt ht ht' (fun y hy u u' hu hu' => ?_)
    ⟨x, hx, fun u u' => hless x hx u u' hx'⟩
  by_cases hy' : Enters σ slot a within y
  · exact Nat.le_of_lt (hless y hy u u' hy' hu hu')
  · rw [render_append n hnew (hmet y hy) (.inr hy') hu hu']

/-- An array with several elements makes the text longer where it is met and not open. -/
theorem length_render_lt (hmany : (σ.items a).size ≠ 1) (n : Nat) :
    ∀ {within : List ArrayId} {v : Value} {t t' : String},
      a ∉ within → MetInside σ slot a within v → Enters σ slot a within v →
      render σ slot n within v = some t → render σ slot n (within ++ [a]) v = some t' →
      t'.length < t.length := by
  induction n with
  | zero =>
    intro within v t t' _ _ _ ht
    cases ht
  | succ n ih =>
    intro within v t t' hnew hmet henters ht ht'
    cases v with
    | array c =>
      by_cases hself : c = a
      -- Written out, the array holds the mark of the open element and more; open, it is the mark.
      · subst hself
        rw [render_closed hnew] at ht
        rw [render_open (by simp)] at ht'
        obtain ⟨e, he, hmark⟩ := hmet.exists_mark ht
        rw [← Option.some.inj ht']
        exact length_lt_joinTexts ht he hmark (mt Array.length_toList.symm.trans hmany)
      · obtain ⟨hopen, x, hx, hrest⟩ := henters.exists_item hself
        rw [render_closed hopen] at ht
        rw [render_closed (by simp [hopen, hself])] at ht'
        have hnew' : a ∉ c :: within := by simp [hnew, Ne.symm hself]
        exact length_joined_lt hnew' (fun y _ => hmet.item y) ⟨x, Array.mem_toList_iff.2 hx, hrest⟩
          (fun y _ u u' hy hu hu' => ih hnew' (hmet.item y) hy hu hu') ht ht'
    | reference r =>
      simp only [render, Option.bind_eq_bind, Option.bind_eq_some_iff] at ht ht'
      obtain ⟨w, hw, ht⟩ := ht
      obtain ⟨w', hw', ht'⟩ := ht'
      cases hw.symm.trans hw'
      have hsame := resolve_resolved hw
      exact ih hnew (hmet.congr hsame) (henters.congr hsame) ht ht'
    | _ =>
      cases henters with
      | self h => cases h
      | item h => cases h

/-- The texts of the elements are joined to the same, with the array open or not, if it is not met
or has one element. -/
theorem joined_eq_iff (hjoined : joinTexts (render σ slot n []) "," (σ.items a).toList = some t)
    (hshown : joinTexts (render σ slot n [a]) "," (σ.items a).toList = some t') :
    t = t' ↔ (¬ ∃ x ∈ σ.items a, Enters σ slot a [] x) ∨ (σ.items a).size = 1 := by
  have hnew : a ∉ ([] : List ArrayId) := List.not_mem_nil
  have hmet : ∀ x ∈ (σ.items a).toList, MetInside σ slot a [] x :=
    fun x hx => ⟨x, Array.mem_toList_iff.1 hx, .inl rfl⟩
  constructor
  · intro heq
    by_contra hnot
    obtain ⟨hcycle, hmany⟩ := not_or.1 hnot
    obtain ⟨x, hx, henters⟩ := not_not.1 hcycle
    rw [← Array.mem_toList_iff] at hx
    have hless : t'.length < t.length := length_joined_lt hnew hmet ⟨x, hx, henters⟩
      (fun y hy u u' hy' hu hu' => length_render_lt hmany n hnew (hmet y hy) hy' hu hu')
      hjoined hshown
    rw [heq] at hless
    exact Nat.lt_irrefl _ hless
  · intro hcalm
    refine joinTexts_eq hjoined hshown fun x hx u u' hu hu' =>
      render_append n hnew (hmet x hx) ?_ hu hu'
    rcases hcalm with hcalm | hsize
    · exact .inr fun henters => hcalm ⟨x, Array.mem_toList_iff.1 hx, henters⟩
    · exact .inl hsize

end Walk

/-! ## 4. Arrays that contain themselves

Ways through the store as such, without fuel and without open arrays. -/

namespace Store

variable {σ : Store} {fuel : Nat} {v : Value} {a : ArrayId}

def ContainsItself (σ : Store) (a : ArrayId) : Prop := ∃ x ∈ σ.items a, σ.Leads x a

theorem leads_of_enters {within : List ArrayId} (h : Walk.Enters σ (σ.slot fuel) a within v) :
    σ.Leads v a := by
  induction h with
  | self h => exact .self ⟨fuel, h⟩
  | item h _ hx _ ih => exact .item ⟨fuel, h⟩ hx ih

theorem enters_of_leads (hitems : ∀ c, ∀ x ∈ σ.items c, ∃ w, σ.resolve fuel x = some w)
    (h : σ.Leads v a) (hv : ∃ w, σ.resolve fuel v = some w) :
    Walk.Enters σ (σ.slot fuel) a [] v := by
  induction h with
  | self h =>
    obtain ⟨w, hw⟩ := hv
    exact .self (hw.trans (congrArg some (ResolvesTo.unique ⟨fuel, hw⟩ h)))
  | item h hx _ ih =>
    obtain ⟨w, hw⟩ := hv
    exact .item (hw.trans (congrArg some (ResolvesTo.unique ⟨fuel, hw⟩ h))) List.not_mem_nil hx
      (ih (hitems _ _ hx))

theorem containsItself_iff (hitems : ∀ c, ∀ x ∈ σ.items c, ∃ w, σ.resolve fuel x = some w)
    (a : ArrayId) :
    σ.ContainsItself a ↔ ∃ x ∈ σ.items a, Walk.Enters σ (σ.slot fuel) a [] x := by
  constructor
  · rintro ⟨x, hx, hleads⟩
    exact ⟨x, hx, enters_of_leads hitems hleads (hitems a x hx)⟩
  · rintro ⟨x, hx, henters⟩
    exact ⟨x, hx, leads_of_enters henters⟩

theorem Settled.halts_texts (hσ : σ.Settled) (a : ArrayId) (within : List ArrayId) :
    Walk.Halts fun fuel => Walk.joinTexts (Walk.render σ (σ.slot (fuel + 1)) fuel within) ","
      (σ.items a).toList := by
  obtain ⟨items, hitems⟩ := hσ.exists_fuel
  let fuel := items + 2 * Walk.room σ.arrayIds within + 2
  have htexts : ∀ v ∈ (σ.items a).toList,
      ∃ t, Walk.render σ (σ.slot (fuel + 1)) fuel within v = some t := by
    intro v hv
    have hall := hitems (fuel + 1) (by omega)
    obtain ⟨w, hw⟩ := hall a v (Array.mem_toList_iff.1 hv)
    have href : v.isReference.toNat ≤ 1 := Bool.toNat_le v.isReference
    exact Walk.exists_render hall (by omega) hw
  obtain ⟨t, ht⟩ := Walk.exists_joinTexts htexts ","
  refine Walk.Finds.halts ⟨fuel, ht⟩ fun n m hnm => ?_
  exact fun _ => Walk.joinTexts_mono fun _ _ =>
    Walk.render_mono (slot_mono (Nat.succ_le_succ hnm)) hnm

/-- An array is compared with a text by what it is joined to. -/
theorem looseEq_text {joined : String} (s : String)
    (h : Walk.joinTexts (Walk.render σ (σ.slot (fuel + 1)) fuel []) "," (σ.items a).toList =
      some joined) :
    σ.looseEq (fuel + 1) (.array a) (.str s) = some (decide (joined = s)) := by
  have horder : σ.compare (fuel + 1) (.array a) (.str s) = some (Ord.compare joined s) := by
    refine (Walk.compare_array_left rfl rfl rfl).trans ?_
    unfold Walk.arrayOrder
    split
    · next hunset => cases hunset
    · split
      · next hnumeric => cases hnumeric
      · rw [h]
        rfl
  rw [looseEq_eq rfl rfl horder]
  have heq : (Ord.compare joined s == .eq) = decide (joined = s) := by
    rw [Bool.eq_iff_iff, beq_iff_eq, decide_eq_true_iff, Std.LawfulEqOrd.compare_eq_iff_eq]
  exact congrArg some heq

end Store

/-! ## 5. Calls

The functions `str` and `join` add to the walks above only that they read their arguments. -/

namespace Eval

variable {σ : Store} {a : ArrayId} {f : FunctionId} {fuel : Nat} {t : String}

theorem argument_of_plain {args : List Value} {i : Nat} {v : Value}
    (hv : args[i]?.getD .invalid = v) (hplain : v.isReference = false) :
    Native.argument fuel args i σ = .done v σ := by
  refine look_of_some ?_
  rw [hv]
  exact Walk.follow_plain hplain hopLimit

theorem invoke_str [Host] (hf : Namespace.core.export? "str" = some (.function (σ.function f)))
    (h : σ.display fuel (.array a) = some t) :
    invoke (fuel + 1) f [.positional (.array a)] σ = .done (.str t) σ := by
  injection hf with hf
  injection hf with hf
  rw [invoke_native hf.symm]
  have harray : Native.argument fuel [.array a] 0 σ = .done (.array a) σ :=
    argument_of_plain rfl rfl
  refine (bind_of_done (m := Native.argument fuel [.array a] 0) harray).trans ?_
  exact bind_of_done (look_of_some h)

theorem invoke_join [Host] (hf : Namespace.array.export? "join" = some (.function (σ.function f)))
    (h : σ.join (fuel + 1) a "," = some t) :
    invoke (fuel + 2) f [.positional (.array a)] σ = .done (.str t) σ := by
  injection hf with hf
  injection hf with hf
  rw [invoke_native hf.symm]
  let args : List Value := [.array a, .str ","]
  have harray : Native.arrayArgument (fuel + 1) args 0 "join" σ = .done a σ :=
    bind_of_done (m := Native.argument (fuel + 1) args 0) (argument_of_plain rfl rfl)
  have hseparator : Native.argument (fuel + 1) args 1 σ = .done (.str ",") σ :=
    argument_of_plain rfl rfl
  refine (bind_of_done (m := Native.arrayArgument (fuel + 1) args 0 "join") harray).trans ?_
  refine (bind_of_done (m := Native.argument (fuel + 1) args 1) hseparator).trans ?_
  refine (bind_of_done (look_of_some (a := ",") rfl)).trans ?_
  exact bind_of_done (look_of_some h)

end Eval

namespace Store

/-- Joining an array with commas and its own text both come to an end, and so does comparing it with
its text.  The array is joined to its text, and is equal to its text, exactly if it does not contain
itself or has one element. -/
theorem array_is_joined_to_its_text_iff [Host] (σ : Store) (hσ : σ.Settled) (a : ArrayId)
    (joiner teller : FunctionId)
    (hjoiner : Namespace.array.export? "join" = some (.function (σ.function joiner)))
    (hteller : Namespace.core.export? "str" = some (.function (σ.function teller))) :
    ∃ joined shown bound, (∀ fuel, bound ≤ fuel →
        Eval.invoke fuel joiner [.positional (.array a)] σ = .done (.str joined) σ ∧
        Eval.invoke fuel teller [.positional (.array a)] σ = .done (.str shown) σ ∧
        σ.display fuel (.array a) = some shown ∧
        σ.binary fuel (.relation .eq) (.array a) (.str shown) =
          some (.bool (decide (joined = shown)))) ∧
      (joined = shown ↔ ¬ σ.ContainsItself a ∨ (σ.items a).size = 1) := by
  obtain ⟨items, hitems⟩ := hσ.exists_fuel
  obtain ⟨joined, bound, hjoined⟩ := hσ.halts_texts a []
  obtain ⟨shown, bound', hshown⟩ := hσ.halts_texts a [a]
  have hdisplay : ∀ fuel, bound' ≤ fuel → σ.display (fuel + 1) (.array a) = some shown :=
    fun fuel hfuel => (Walk.render_closed List.not_mem_nil).trans (hshown fuel hfuel)
  refine ⟨joined, shown, max bound bound' + 2, fun fuel hfuel => ?_, ?_⟩
  · obtain ⟨n, rfl⟩ : ∃ n, fuel = n + 2 :=
      Nat.exists_eq_add_of_le' (Nat.le_trans (Nat.le_add_left 2 _) hfuel)
    have hjoin : σ.join (n + 1) a "," = some joined :=
      Walk.joinTexts_mono (fun _ _ => Walk.render_mono (fun _ _ hr => hr) n.le_succ)
        (hjoined n (by omega))
    exact ⟨Eval.invoke_join hjoiner hjoin, Eval.invoke_str hteller (hdisplay n (by omega)),
      hdisplay (n + 1) (by omega),
      binary_relation (looseEq_text shown (hjoined (n + 1) (by omega)))⟩
  · let fuel := max items (max bound bound')
    rw [containsItself_iff (hitems (fuel + 1) (by omega))]
    exact Walk.joined_eq_iff (hjoined fuel (by omega)) (hshown fuel (by omega))

/-- Arrays that contain themselves, the first one behind its only element, and the functions `join`
and `str`. -/
def folded : Store where
  arrays := #[#[.array ⟨1⟩], #[.int 2, .array ⟨0⟩], #[.int 1, .array ⟨2⟩]]
  scopes := #[]
  functions :=
    #[⟨"join", [⟨"array", none⟩, ⟨"separator", some (.value (.str ","))⟩], .native .join false⟩,
      ⟨"str", [⟨"value", none⟩], .native .str false⟩]

theorem folded_settled : folded.Settled := settled_of_resolves 1 (by decide +kernel)

theorem folded_joined :
    folded.Settled ∧ folded.ContainsItself ⟨0⟩ ∧ ∃ text bound, ∀ fuel, bound ≤ fuel →
      Eval.invoke fuel ⟨0⟩ [.positional (.array ⟨0⟩)] folded = .done (.str text) folded ∧
      Eval.invoke fuel ⟨1⟩ [.positional (.array ⟨0⟩)] folded = .done (.str text) folded ∧
      folded.binary fuel (.relation .eq) (.array ⟨0⟩) (.str text) = some (.bool true) := by
  have hfirst : Value.array ⟨1⟩ ∈ folded.items ⟨0⟩ := by decide +kernel
  have hback : Value.array ⟨0⟩ ∈ folded.items ⟨1⟩ := by decide +kernel
  have hcontains : folded.ContainsItself ⟨0⟩ :=
    ⟨.array ⟨1⟩, hfirst, .item ⟨1, rfl⟩ hback (.self ⟨1, rfl⟩)⟩
  obtain ⟨joined, shown, bound, hends, hagree⟩ :=
    array_is_joined_to_its_text_iff folded folded_settled ⟨0⟩ ⟨0⟩ ⟨1⟩ rfl rfl
  obtain rfl := hagree.2 (.inr rfl)
  refine ⟨folded_settled, hcontains, joined, bound, fun fuel hfuel => ?_⟩
  obtain ⟨hjoin, hstr, -, heq⟩ := hends fuel hfuel
  rw [decide_eq_true rfl] at heq
  exact ⟨hjoin, hstr, heq⟩

theorem folded_texts_differ :
    folded.Settled ∧
    Eval.invoke 9 ⟨0⟩ [.positional (.array ⟨2⟩)] folded = .done (.str "1,1,[...]") folded ∧
    Eval.invoke 9 ⟨1⟩ [.positional (.array ⟨2⟩)] folded = .done (.str "1,[...]") folded ∧
    folded.binary 9 (.relation .eq) (.array ⟨2⟩) (.str "1,[...]") = some (.bool false) :=
  ⟨folded_settled, rfl, rfl, rfl⟩

end Store
end Scriptlet
