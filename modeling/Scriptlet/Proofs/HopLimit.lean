import Scriptlet.Proofs.Endings
import Scriptlet.Proofs.FailedWrite
import Scriptlet.Proofs.WriteRead

/-!
# How far stored references are followed

A location may hold a reference to another one, which may again hold a reference, and so on.  A read
counts the references that it follows, and a write counts the locations that it visits; the first
location is visited before any reference is followed, so both go equally far.  A trail of 64
references is read and written to its end, and one that is longer, or that comes back to a location
on it, is neither read nor written.

The limit of 64 and the code R005 are those of §10.6 of the specification.
-/

namespace Scriptlet

/-! ## 1. Visits that follow references -/

namespace Store

variable {σ : Store} {fuel k : Nat} {q r t u : Reference} {l m : Location} {v w : Value}

/-- A location with a reference passes a plain value on to what the reference names. -/
theorem Names.next (hnames : σ.Names fuel r l) (hcontent : σ.content l = some (.reference t))
    (hw : w.isReference = false) :
    Visit.Next fuel ⟨σ, r, w⟩ ⟨σ, t, w⟩ := by
  cases hnames with
  | binding env x =>
    apply Visit.Next.binding _ hw
    rw [lookup_eq_setter]
    exact hcontent
  | cell hbase hindex => exact .cell hindex hbase hcontent hw

/-- At a location that holds a plain value, the write is carried out. -/
theorem Names.run_last {budget : Nat} (hnames : σ.Names fuel r l) (hcontent : σ.content l = some v)
    (hv : v.isReference = false) (w : Value) :
    Visit.run fuel (budget + 1) ⟨σ, r, w⟩ = .done () (σ.put l w) := by
  have hplain : ∀ t, σ.content l ≠ some (.reference t) := by
    intro t ht
    rw [Option.some.inj (hcontent.symm.trans ht)] at hv
    cases hv
  cases hnames with
  | binding env x =>
    have hset : σ.set env x w = σ.put (.binding (σ.setter env x) x) w := set_eq env x w
    rw [← hset]
    apply Visit.run_binding
    rw [lookup_eq_setter]
    exact hplain
  | @cell base index a i hbase hindex =>
    have hbound : i < (σ.items a).size := (Array.getElem?_eq_some_iff.1 hcontent).1
    have hgrowth : ¬ ((σ.items a).size ≤ i ∧ growthLimit ≤ i) := by omega
    have hstored : ¬ ∃ t, (σ.items a)[i]? = some (.reference t) ∧ w.isReference = false := by
      rintro ⟨t, ht, -⟩
      exact hplain t ht
    apply (Eval.look_bind hindex).trans
    apply (Eval.look_bind hbase).trans
    apply (congrFun ((Eval.forward_or_last _ w _ _).resolve_left hstored) σ).trans
    exact congrFun (if_neg hgrowth) σ

/-- A write of a plain value visits what the stored references lead to. -/
theorem LeadsTo.visits (h : σ.LeadsTo fuel k q r) (hw : w.isReference = false) :
    Visit.Chain fuel k ⟨σ, q, w⟩ ⟨σ, r, w⟩ := by
  induction h with
  | refl r => exact .refl _
  | follow _ hnames hcontent ih => exact ih.snoc (hnames.next hcontent hw)

/-- At the end of a trail that is short enough, the value is put. -/
theorem LeadsTo.write_done (h : σ.LeadsTo fuel k q r) (hk : k ≤ hopLimit)
    (hnames : σ.Names fuel r l) (hcontent : σ.content l = some v) (hv : v.isReference = false)
    (hw : w.isReference = false) :
    Eval.write fuel q w σ = .done () (σ.put l w) := by
  exact (Visit.write_of_chain (h.visits hw) hk).trans (hnames.run_last hcontent hv w)

/-- One reference more than the limit: the read stops in front of it, and the write behind it. -/
theorem LeadsTo.past_limit (h : σ.LeadsTo fuel (hopLimit + 1) q t) :
    σ.read (fuel + 1) q = some .invalid ∧
      (w.isReference = false →
        Eval.write fuel q w σ = .failed (.unplaced (.chainTooDeep hopLimit)) σ) := by
  constructor
  · cases h with
    | @follow k q r t l hlead hnames hcontent =>
      have hfollow := hlead.follow_slot 0
      rw [hnames.slot, hcontent, Nat.zero_add] at hfollow
      exact hfollow
  · intro hw
    exact Visit.write_of_long_chain (h.visits hw)

/-! ## 2. Trails

`LeadsTo` counts references for one amount of fuel.  A trail is what it counts, with the locations,
and for any fuel that is enough. -/

/-- The location that a reference names, for any fuel that is enough to find it. -/
def Designates (σ : Store) (r : Reference) (l : Location) : Prop := ∃ fuel, σ.Names fuel r l

theorem designates_variable (env : Env) (x : String) :
    σ.Designates (.binding env x) (.binding (σ.setter env x) x) :=
  ⟨0, .binding env x⟩

/-- A cell of an array that a variable holds. -/
theorem designates_cell {env : Env} {x : String} {a : ArrayId} {index : Value} {i : Nat}
    (hx : σ.lookup env x = some (.array a)) (hindex : Walk.Finds (σ.toIndex · index) (some i)) :
    σ.Designates (.element (.binding env x) index) (.cell a i) := by
  obtain ⟨n, hn⟩ := hindex
  have hread : σ.read (n + 1) (.binding env x) = some (.array a) := by
    simp only [read, slot, hx, Option.bind_eq_bind, Option.bind_some, Option.getD_some]
    exact Walk.follow_plain rfl hopLimit
  exact ⟨n + 1, .cell hread (σ.steady_toIndex index n.le_succ _ hn)⟩

/-- Stored references lead from one reference to another; `ls` are the locations that hold them. -/
inductive Trail (σ : Store) : Reference → (ls : List Location) → Reference → Prop
  | nil (r : Reference) : Trail σ r [] r
  | cons {r t u : Reference} {l : Location} {ls : List Location} : σ.Designates r l →
      σ.content l = some (.reference t) → Trail σ t ls u → Trail σ r (l :: ls) u

variable {ls ls' : List Location}

theorem Trail.append (h : σ.Trail r ls t) (h' : σ.Trail t ls' u) : σ.Trail r (ls ++ ls') u := by
  induction h with
  | nil r => exact h'
  | cons hl hcontent _ ih => exact .cons hl hcontent (ih h')

/-- A trail can be cut anywhere. -/
theorem Trail.split {ls₁ ls₂ : List Location} (h : σ.Trail r (ls₁ ++ ls₂) u) :
    ∃ t, σ.Trail r ls₁ t ∧ σ.Trail t ls₂ u := by
  induction ls₁ generalizing r with
  | nil => exact ⟨r, .nil r, h⟩
  | cons l ls₁ ih =>
    cases h with
    | cons hl hcontent hrest =>
      obtain ⟨t, hfirst, hsecond⟩ := ih hrest
      exact ⟨t, .cons hl hcontent hfirst, hsecond⟩

/-- Every location of a trail holds a reference. -/
theorem Trail.content (h : σ.Trail r ls u) : ∀ l ∈ ls, ∃ t, σ.content l = some (.reference t) := by
  induction h with
  | nil r => simp
  | @cons r t u l ls _ hcontent _ ih =>
    intro m hm
    rcases List.mem_cons.1 hm with rfl | hm
    · exact ⟨t, hcontent⟩
    · exact ih m hm

theorem Names.mono {n n' : Nat} (hle : n ≤ n') (h : σ.Names n r l) : σ.Names n' r l := by
  cases h with
  | binding env x => exact .binding env x
  | cell hbase hindex => exact .cell (σ.steady_read _ hle _ hbase) (σ.steady_toIndex _ hle _ hindex)

/-- A reference in front of others. -/
theorem LeadsTo.cons (hnames : σ.Names fuel r l) (hcontent : σ.content l = some (.reference t))
    (h : σ.LeadsTo fuel k t u) : σ.LeadsTo fuel (k + 1) r u := by
  induction h with
  | refl t => exact .follow (.refl r) hnames hcontent
  | follow _ hnext hstored ih => exact .follow (ih hcontent) hnext hstored

/-- One amount of fuel is enough for all references of a trail. -/
theorem Trail.leadsTo (h : σ.Trail r ls t) :
    ∃ bound, ∀ n, bound ≤ n → σ.LeadsTo n ls.length r t := by
  induction h with
  | nil r => exact ⟨0, fun n _ => .refl r⟩
  | cons hl hcontent _ ih =>
    obtain ⟨first, hnames⟩ := hl
    obtain ⟨bound, hrest⟩ := ih
    refine ⟨max first bound, fun n hn => ?_⟩
    have hfirst : first ≤ n := Nat.le_trans (Nat.le_max_left _ _) hn
    have hbound : bound ≤ n := Nat.le_trans (Nat.le_max_right _ _) hn
    exact .cons (hnames.mono hfirst) hcontent (hrest n hbound)

/-- Behind a location that a trail comes back to, there is a trail of any length. -/
theorem Trail.exists_longer (h : σ.Trail r ls r) (hne : ls ≠ []) (n : Nat) :
    ∃ ls', n ≤ ls'.length ∧ σ.Trail r ls' r := by
  induction n with
  | zero => exact ⟨[], Nat.le_refl 0, .nil r⟩
  | succ n ih =>
    obtain ⟨ls', hlength, hmore⟩ := ih
    have hpos : 0 < ls.length := List.length_pos_iff.2 hne
    refine ⟨ls ++ ls', ?_, h.append hmore⟩
    rw [List.length_append]
    omega

/-- A trail whose last reference names one of its locations can be followed for ever. -/
theorem Trail.exists_of_loop (h : σ.Trail r ls t) (hl : σ.Designates t l)
    (hmem : l ∈ ls) (n : Nat) :
    ∃ ls' u, n ≤ ls'.length ∧ σ.Trail r ls' u := by
  -- The trail is cut where it comes back to; what is behind the cut can be walked again and again.
  obtain ⟨before, behind, rfl⟩ := List.append_of_mem hmem
  obtain ⟨q, hbefore, hrest⟩ := h.split
  cases hrest with
  | @cons _ u _ _ _ hq hcontent hbehind =>
    -- The location holds the same reference when the trail comes to it again.
    have hloop : σ.Trail u (behind ++ [l]) u := hbehind.append (.cons hl hcontent (.nil u))
    obtain ⟨ls', hlength, hmore⟩ := hloop.exists_longer (by simp) n
    refine ⟨before ++ l :: ls', u, ?_, hbefore.append (.cons hq hcontent hmore)⟩
    rw [List.length_append, List.length_cons]
    omega

/-! ## 3. The limit

With exactly as many references as the limit allows, reads and writes go through; with one more the
read is unset and the write fails. -/

/-- Reading the reference gives `v`, and writing `w` to it puts `w` in the location `last` and
leaves the locations `ls` as they are. -/
structure WithinReach (σ : Store) (r : Reference) (ls : List Location) (last : Location)
    (v w : Value) : Prop where
  read : Walk.Finds (σ.read · r) v
  write : Eval.Ends (Eval.write · r w) σ (.done () (σ.put last w))
  written : (σ.put last w).content last = some w
  kept : ∀ l ∈ ls, (σ.put last w).content l = σ.content l

/-- Reading the reference gives nothing, and writing to it fails with R005 and changes nothing. -/
structure OutOfReach (σ : Store) (r : Reference) (w : Value) : Prop where
  read : Walk.Finds (σ.read · r) .invalid
  write : ∃ e, e.code = "R005" ∧ e.fault = .chainTooDeep 64 ∧
    Eval.Ends (Eval.write · r w) σ (.failed e σ)

/-- Putting a value where there is one changes nothing else. -/
theorem content_put (hl : σ.content l = some v) (w : Value) (m : Location) :
    (σ.put l w).content m = if m = l then some w else σ.content m := by
  cases l with
  | binding s x => exact content_put_binding (lt_size_of_find? hl) x w m
  | cell a i =>
    have hbound : i < (σ.items a).size := (Array.getElem?_eq_some_iff.1 hl).1
    have ha : a.index < σ.arrays.size := by
      by_contra hge
      rw [σ.items_of_size_le (Nat.not_lt.1 hge)] at hbound
      exact absurd hbound (Nat.not_lt_zero i)
    rw [content_put_cell ha]
    cases m with
    | binding s x => rfl
    | cell b j =>
      by_cases hb : b = a
      · subst hb
        have hpad : ¬ ((σ.items b).size ≤ j ∧ j < i) := by omega
        simp only [getElem?_putElement, if_neg hpad, Location.cell.injEq, true_and, if_true]
        rfl
      · simp [hb]

/-- A short trail is read and written to its end.  Its locations hold references, so the last one is
none of them. -/
theorem Trail.withinReach {last : Location} (h : σ.Trail r ls t) (hle : ls.length ≤ hopLimit)
    (hlast : σ.Designates t last) (hv : σ.content last = some v) (hplain : v.isReference = false)
    (hw : w.isReference = false) :
    σ.WithinReach r ls last v w := by
  obtain ⟨bound, hlead⟩ := h.leadsTo
  obtain ⟨n, hnames⟩ := hlast
  have hlead := hlead (max bound n) (Nat.le_max_left _ _)
  have hnames := hnames.mono (Nat.le_max_right bound n)
  have hstored : ∀ t, σ.content last ≠ some (.reference t) := by
    intro t ht
    rw [Option.some.inj (hv.symm.trans ht)] at hplain
    cases hplain
  constructor
  · have hvalue := (hlead.reads hle hnames hstored).value
    rw [hv] at hvalue
    exact ⟨_, hvalue⟩
  · exact ⟨nofun, _, hlead.write_done hle hnames hv hplain hw⟩
  · rw [content_put hv, if_pos rfl]
  · intro l hl
    obtain ⟨t, ht⟩ := h.content l hl
    have hne : l ≠ last := by
      rintro rfl
      exact hstored t ht
    rw [content_put hv, if_neg hne]

/-- Of a long trail, one reference more than the limit is enough to fail. -/
theorem Trail.outOfReach (h : σ.Trail r ls t) (hlt : hopLimit < ls.length)
    (hw : w.isReference = false) :
    σ.OutOfReach r w := by
  have hcut : (ls.take (hopLimit + 1)).length = hopLimit + 1 := by
    rw [List.length_take]
    omega
  rw [← List.take_append_drop (hopLimit + 1) ls] at h
  obtain ⟨u, hfirst, -⟩ := h.split
  obtain ⟨bound, hlead⟩ := hfirst.leadsTo
  rw [hcut] at hlead
  obtain ⟨hread, hwrite⟩ := (hlead bound (Nat.le_refl bound)).past_limit
  exact ⟨⟨_, hread⟩, _, rfl, rfl, nofun, _, hwrite hw⟩

/-- A trail of references is read and written to its end if there are at most 64 of them, and
otherwise neither read nor written.  A trail that comes back to one of its locations is neither read
nor written. -/
theorem hop_limit_is_exact {w : Value} (hw : w.isReference = false) (σ : Store) (r : Reference) :
    (∀ ls t last v, σ.Trail r ls t → σ.Designates t last → σ.content last = some v →
      v.isReference = false →
      (ls.length ≤ 64 → σ.WithinReach r ls last v w) ∧ (64 < ls.length → σ.OutOfReach r w)) ∧
    ∀ ls t l, σ.Trail r ls t → σ.Designates t l → l ∈ ls → σ.OutOfReach r w := by
  constructor
  · intro ls t last v htrail hlast hv hplain
    constructor
    · intro hle
      exact htrail.withinReach hle hlast hv hplain hw
    · intro hlt
      exact htrail.outOfReach hlt hw
  · intro ls t l htrail hl hmem
    obtain ⟨ls', u, hlength, hlonger⟩ := htrail.exists_of_loop hl hmem (hopLimit + 1)
    exact hlonger.outOfReach hlength hw

/-! ## 4. A ladder of references -/

def globals : Env := ⟨⟨0⟩, []⟩

def rung (k : Nat) : Reference := .element (.binding globals "a") (.int (Int64.ofNat k))

/-- Each cell of the array `a` refers to the next one, and the last one holds a number.  The
variable `p` refers to the first cell, and `q` refers to itself. -/
def ladder (n : Nat) : Store where
  arrays :=
    #[(((List.range n).map fun k => Value.reference (rung (k + 1))) ++ [Value.int 7]).toArray]
  scopes :=
    #[⟨[("p", .reference (rung 0)), ("a", .array ⟨0⟩), ("q", .reference (.binding globals "q"))]⟩]
  functions := #[]

theorem ladder_rung {n k : Nat} (hk : k < n) :
    (ladder n).content (.cell ⟨0⟩ k) = some (.reference (rung (k + 1))) := by
  simp [content, items, ladder, hk, List.getElem?_append]

theorem ladder_top (n : Nat) : (ladder n).content (.cell ⟨0⟩ n) = some (.int 7) := by
  simp [content, items, ladder]

/-- A rung is named by its number. -/
theorem designates_rung (n : Nat) {k : Nat} (hk : k ≤ hopLimit) :
    (ladder n).Designates (rung k) (.cell ⟨0⟩ k) := by
  have hlookup : (ladder n).lookup globals "a" = some (.array ⟨0⟩) := rfl
  have hword : (Int64.ofNat k).toInt = k := by
    apply Int64.toInt_ofNat_of_lt
    rw [hopLimit] at hk
    omega
  apply designates_cell hlookup
  refine ⟨0, congrArg some ?_⟩
  simp only [Number.index?, hword]
  rfl

theorem trail_rung {n : Nat} (hn : n ≤ hopLimit) (k : Nat) (hk : k ≤ n) :
    ∃ ls, ls.length = k ∧ (ladder n).Trail (rung (n - k)) ls (rung n) := by
  induction k with
  | zero => exact ⟨[], rfl, .nil _⟩
  | succ k ih =>
    obtain ⟨ls, hlength, htrail⟩ := ih (Nat.le_of_succ_le hk)
    have hnext : n - (k + 1) + 1 = n - k := by omega
    have hstored := ladder_rung (n := n) (k := n - (k + 1)) (by omega)
    rw [hnext] at hstored
    exact ⟨_, congrArg (· + 1) hlength, .cons (designates_rung n (by omega)) hstored htrail⟩

/-- From `p`, there is one reference more than the ladder has rungs below the last one. -/
theorem trail_ladder {n : Nat} (hn : n ≤ hopLimit) :
    ∃ ls, ls.length = n + 1 ∧ (ladder n).Trail (.binding globals "p") ls (rung n) := by
  obtain ⟨ls, hlength, htrail⟩ := trail_rung hn n (Nat.le_refl n)
  rw [Nat.sub_self] at htrail
  exact ⟨_, congrArg (· + 1) hlength, .cons (designates_variable globals "p") rfl htrail⟩

theorem ladder_is_climbed :
    (∃ ls, ls.length = 64 ∧ (ladder 63).Trail (.binding globals "p") ls (rung 63) ∧
      (ladder 63).WithinReach (.binding globals "p") ls (.cell ⟨0⟩ 63) (.int 7) (.int 8)) ∧
    (∃ ls, ls.length = 65 ∧ (ladder 64).Trail (.binding globals "p") ls (rung 64) ∧
      (ladder 64).OutOfReach (.binding globals "p") (.int 8)) ∧
    (ladder 0).OutOfReach (.binding globals "q") (.int 8) := by
  have hw : (Value.int 8).isReference = false := rfl
  refine ⟨?_, ?_, ?_⟩
  · obtain ⟨ls, hlength, htrail⟩ := trail_ladder (n := 63) (by decide)
    refine ⟨ls, hlength, htrail, ?_⟩
    exact (((hop_limit_is_exact hw _ _).1 ls _ _ _ htrail (designates_rung 63 (by decide))
      (ladder_top 63) rfl).1 (Nat.le_of_eq hlength))
  · obtain ⟨ls, hlength, htrail⟩ := trail_ladder (n := 64) (by decide)
    refine ⟨ls, hlength, htrail, ?_⟩
    exact (((hop_limit_is_exact hw _ _).1 ls _ _ _ htrail (designates_rung 64 (by decide))
      (ladder_top 64) rfl).2 (by omega))
  · have hq : (ladder 0).Designates (.binding globals "q") (.binding ⟨0⟩ "q") :=
      designates_variable globals "q"
    exact (hop_limit_is_exact hw _ _).2 _ _ _ (.cons hq rfl (.nil _)) hq List.mem_cons_self

end Store
end Scriptlet
