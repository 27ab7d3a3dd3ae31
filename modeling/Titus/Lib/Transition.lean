import Mathlib.Algebra.GroupWithZero.Nat
import Mathlib.Logic.Relation

/-! Transition systems with an executable step: the states a system reaches, the invariants of its
steps, and the projection of one system's runs onto another's. -/

namespace Transition

/-- A system on states `σ`: where it starts, and the state that an action leads to, if the action
is enabled. -/
structure System (σ α : Type*) where
  init : σ → Prop
  next : σ → α → Option σ

variable {σ τ α β : Type*}

namespace System

/-- The states that runs of `S` reach. -/
inductive Reachable (S : System σ α) : σ → Prop
  | init {s : σ} (h : S.init s) : Reachable S s
  | step {s s' : σ} {a : α} (hr : Reachable S s) (h : S.next s a = some s') : Reachable S s'

/-- The state after the actions `as` in order. -/
def run (S : System σ α) : σ → List α → Option σ
  | s, [] => some s
  | s, a :: as => (S.next s a).bind (S.run · as)

/-- `I` holds initially and every step from a reachable state keeps it. -/
structure Invariant (S : System σ α) (I : σ → Prop) : Prop where
  init : ∀ s, S.init s → I s
  step : ∀ s a s', S.Reachable s → I s → S.next s a = some s' → I s'

variable {S : System σ α} {T : System τ β} {I J : σ → Prop}

theorem Invariant.holds (h : S.Invariant I) {s : σ} (hr : S.Reachable s) : I s := by
  induction hr with
  | init hi => exact h.init _ hi
  | step hr hs ih => exact h.step _ _ _ hr ih hs

/-- A step may assume an invariant already proved. -/
theorem Invariant.of_step (hJ : S.Invariant J) (hinit : ∀ s, S.init s → I s)
    (hstep : ∀ s a s', J s → I s → S.next s a = some s' → I s') : S.Invariant I :=
  ⟨hinit, fun s a s' hr hi hs => hstep s a s' (hJ.holds hr) hi hs⟩

theorem Invariant.and (h : S.Invariant I) (h' : S.Invariant J) :
    S.Invariant fun s => I s ∧ J s :=
  ⟨fun s hs => ⟨h.init s hs, h'.init s hs⟩,
    fun s a s' hr hi hs => ⟨h.step s a s' hr hi.1 hs, h'.step s a s' hr hi.2 hs⟩⟩

theorem Reachable.run {s s' : σ} (hr : S.Reachable s) {as : List α} (h : S.run s as = some s') :
    S.Reachable s' := by
  induction as generalizing s with
  | nil =>
    cases h
    exact hr
  | cons a as ih =>
    obtain ⟨t, ht, hrest⟩ := Option.bind_eq_some_iff.mp h
    exact ih (hr.step ht) hrest

theorem run_append_eq_bind (s : σ) (as bs : List α) :
    S.run s (as ++ bs) = (S.run s as).bind (S.run · bs) := by
  induction as generalizing s with
  | nil => rfl
  | cons a as ih =>
    simp only [List.cons_append, System.run, Option.bind_assoc]
    exact congrArg _ (funext ih)

theorem run_append {s t : σ} {as bs : List α} (h : S.run s as = some t) :
    S.run s (as ++ bs) = S.run t bs := by
  rw [run_append_eq_bind, h, Option.bind_some]

/-- A run that can be evaluated shows that a state with the property `p` is reached. -/
theorem exists_reachable {s : σ} (hi : S.init s) (as : List α) (p : σ → Prop) [DecidablePred p]
    (h : (S.run s as).any (fun s => p s) = true) : ∃ s', S.Reachable s' ∧ p s' := by
  obtain ⟨s', hs', hp⟩ := (Option.any_eq_true _ _).mp h
  exact ⟨s', (Reachable.init hi).run hs', of_decide_eq_true hp⟩

/-! ### Runs whose steps meet a condition -/

/-- `S` with the steps that meet `ok` only. -/
def restrict (S : System σ α) (ok : σ → α → Prop) [∀ s a, Decidable (ok s a)] : System σ α where
  init := S.init
  next s a := if ok s a then S.next s a else none

section Restrict

variable {ok : σ → α → Prop} [∀ s a, Decidable (ok s a)]

theorem next_restrict {s s' : σ} {a : α} :
    (S.restrict ok).next s a = some s' ↔ ok s a ∧ S.next s a = some s' := by
  simp only [restrict]
  split
  · rename_i h
    exact ⟨fun hs => ⟨h, hs⟩, And.right⟩
  · rename_i h
    exact ⟨nofun, fun hs => absurd hs.1 h⟩

theorem reachable_of_restrict {s : σ} (hr : (S.restrict ok).Reachable s) : S.Reachable s := by
  induction hr with
  | init hi => exact .init hi
  | step hr hs ih => exact ih.step (next_restrict.mp hs).2

/-- A step that meets the condition may assume that, and an invariant of all steps. -/
theorem Invariant.restrict (hJ : S.Invariant J) (hinit : ∀ s, S.init s → I s)
    (hstep : ∀ s a s', J s → I s → ok s a → S.next s a = some s' → I s') :
    (S.restrict ok).Invariant I := by
  refine ⟨hinit, fun s a s' hr hi hs => ?_⟩
  obtain ⟨hok, hs⟩ := next_restrict.mp hs
  exact hstep s a s' (hJ.holds (reachable_of_restrict hr)) hi hok hs

end Restrict

/-! ### What holds of each action of a run -/

/-- `p` holds of each action and the state in which it is taken. -/
def Along (S : System σ α) (p : σ → α → Prop) : σ → List α → Prop
  | _, [] => True
  | s, a :: as => p s a ∧ ∀ s', S.next s a = some s' → Along S p s' as

/-- Two properties of actions that are one in the states with an invariant, which the actions with
these properties keep. -/
theorem along_iff {p q ok : σ → α → Prop} (hiff : ∀ s a, I s → ok s a → (p s a ↔ q s a))
    (hstep : ∀ s a s', I s → ok s a → p s a → S.next s a = some s' → I s') {s : σ} {as : List α}
    (hi : I s) (hok : S.Along ok s as) : S.Along p s as ↔ S.Along q s as := by
  induction as generalizing s with
  | nil => exact Iff.rfl
  | cons a as ih =>
    obtain ⟨ha, hrest⟩ := hok
    have hsame := hiff s a hi ha
    constructor
    · rintro ⟨hp, htail⟩
      refine ⟨hsame.mp hp, fun s' hs => ?_⟩
      exact (ih (hstep s a s' hi ha hp hs) (hrest s' hs)).mp (htail s' hs)
    · rintro ⟨hq, htail⟩
      have hp := hsame.mpr hq
      refine ⟨hp, fun s' hs => ?_⟩
      exact (ih (hstep s a s' hi ha hp hs) (hrest s' hs)).mpr (htail s' hs)

/-! ### The cost of a run -/

/-- The cost of the actions of a run together. -/
def cost (S : System σ α) (c : σ → α → ℕ) : σ → List α → ℕ
  | _, [] => 0
  | s, a :: as => c s a + ((S.next s a).elim 0 fun s' => cost S c s' as)

/-- A potential that pays for every action pays for the whole run. -/
theorem cost_le {c : σ → α → ℕ} {potential : σ → ℕ}
    (hI : ∀ s a s', I s → S.next s a = some s' → I s')
    (hpay : ∀ s a s', I s → S.next s a = some s' → c s a + potential s' ≤ potential s) {s s' : σ}
    {as : List α} (hi : I s) (hrun : S.run s as = some s') :
    S.cost c s as + potential s' ≤ potential s := by
  induction as generalizing s with
  | nil =>
    cases hrun
    exact Nat.le_of_eq (Nat.zero_add _)
  | cons a as ih =>
    obtain ⟨t, ht, hrest⟩ := Option.bind_eq_some_iff.mp hrun
    have hlater := ih (hI s a t hi ht) hrest
    have hnow := hpay s a t hi ht
    simp only [cost, ht, Option.elim_some]
    omega

/-- A run takes as many steps of a kind as it has such actions. -/
theorem cost_eq_countP {kind : α → Bool} {s s' : σ} {as : List α}
    (hrun : S.run s as = some s') :
    S.cost (fun _ a => if kind a then 1 else 0) s as = as.countP kind := by
  induction as generalizing s with
  | nil => rfl
  | cons a as ih =>
    obtain ⟨u, hu, hrest⟩ := Option.bind_eq_some_iff.mp hrun
    rw [List.countP_cons, ← ih hrest, Nat.add_comm]
    simp only [cost, hu, Option.elim_some]

theorem run_induction (hI : ∀ s a s', I s → S.next s a = some s' → I s') {s s' : σ} {as : List α}
    (hi : I s) (hrun : S.run s as = some s') : I s' := by
  induction as generalizing s with
  | nil =>
    cases hrun
    exact hi
  | cons a as ih =>
    obtain ⟨t, ht, hrest⟩ := Option.bind_eq_some_iff.mp hrun
    exact ih (hI s a t hi ht) hrest

/-! ### Projections -/

/-- Every step of `S` from a reachable state is, under `f`, a step of `T` or no step. -/
structure Projects (S : System σ α) (T : System τ β) (f : σ → τ) : Prop where
  init : ∀ s, S.init s → T.init (f s)
  step : ∀ s a s', S.Reachable s → T.Reachable (f s) → S.next s a = some s' →
    f s' = f s ∨ ∃ b, T.next (f s) b = some (f s')

theorem Projects.reachable {f : σ → τ} (h : S.Projects T f) {s : σ} (hr : S.Reachable s) :
    T.Reachable (f s) := by
  induction hr with
  | init hi => exact .init (h.init _ hi)
  | step hr hs ih =>
    rcases h.step _ _ _ hr ih hs with heq | ⟨b, hb⟩
    · rwa [heq]
    · exact ih.step hb

/-- A system that keeps a record beside the state. -/
theorem Projects.of_record {γ : Type*} {R : System (σ × γ) α} {record : σ × γ → α → γ}
    (hinit : ∀ x, R.init x → S.init x.1)
    (hnext : ∀ x a, R.next x a = (S.next x.1 a).map fun s => (s, record x a)) :
    R.Projects S Prod.fst := by
  constructor
  · exact hinit
  · intro x a x' _ _ hs
    rw [hnext] at hs
    obtain ⟨s, hstep, heq⟩ := Option.map_eq_some_iff.mp hs
    rw [← heq]
    exact .inr ⟨a, hstep⟩

end System

/-- The processes of the smallest runs have the literals `0` and `1` as their numbers. -/
instance neZero_two : NeZero 2 := ⟨by decide⟩

/-- A tree of three is the smallest one with two children. -/
instance neZero_three : NeZero 3 := ⟨by decide⟩

end Transition
