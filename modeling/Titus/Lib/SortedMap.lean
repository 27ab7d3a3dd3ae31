import Mathlib.Data.List.Sigma
import Mathlib.Data.List.TakeWhile
import Mathlib.Order.Lattice

/-! Ordered maps, as the list of their entries in increasing order of the keys.  The type of an entry
depends on its key.  A map is merged into another one in a single pass, with a position in the second
that only moves forward while entries are inserted there. -/

variable {K : Type*} [LinearOrder K] {E : K → Type*}

/-- The keys increase. -/
def SortedMap.Sorted (l : List (Sigma E)) : Prop := l.Pairwise fun x y => x.1 < y.1

structure SortedMap (E : K → Type*) where
  entries : List (Sigma E)
  sorted : SortedMap.Sorted entries

namespace SortedMap

open List

theorem sorted_append {l l' : List (Sigma E)} :
    Sorted (l ++ l') ↔ Sorted l ∧ Sorted l' ∧ ∀ x ∈ l, ∀ y ∈ l', x.1 < y.1 :=
  pairwise_append

theorem sorted_cons {x : Sigma E} {l : List (Sigma E)} :
    Sorted (x :: l) ↔ (∀ y ∈ l, x.1 < y.1) ∧ Sorted l :=
  pairwise_cons

/-- Insert an entry, unless its key is present. -/
def insertEntry (x : Sigma E) : List (Sigma E) → List (Sigma E)
  | [] => [x]
  | y :: l =>
    if x.1 < y.1 then x :: y :: l
    else if x.1 = y.1 then y :: l
    else y :: insertEntry x l

theorem mem_insertEntry {x z : Sigma E} {l : List (Sigma E)} (h : z ∈ insertEntry x l) :
    z = x ∨ z ∈ l := by
  induction l with
  | nil => exact .inl (mem_singleton.mp h)
  | cons y l ih =>
    unfold insertEntry at h
    split at h
    · exact mem_cons.mp h
    · split at h
      · exact .inr h
      · rcases mem_cons.mp h with rfl | h
        · exact .inr (mem_cons_self ..)
        · exact (ih h).imp id (mem_cons_of_mem _)

theorem insertEntry_sorted (x : Sigma E) {l : List (Sigma E)} (h : Sorted l) :
    Sorted (insertEntry x l) := by
  induction l with
  | nil => exact pairwise_singleton _ _
  | cons y l ih =>
    obtain ⟨hy, hl⟩ := sorted_cons.mp h
    unfold insertEntry
    split
    · rename_i hlt
      refine sorted_cons.mpr ⟨fun z hz => ?_, h⟩
      rcases mem_cons.mp hz with rfl | hz
      · exact hlt
      · exact hlt.trans (hy z hz)
    · split
      · exact h
      · rename_i hle hne
        refine sorted_cons.mpr ⟨fun z hz => ?_, ih hl⟩
        rcases mem_insertEntry hz with rfl | hz
        · exact lt_of_le_of_ne (not_lt.mp hle) (Ne.symm hne)
        · exact hy z hz

/-- Between smaller and larger keys an entry is inserted as it is. -/
theorem insertEntry_append {x : Sigma E} {l l' : List (Sigma E)} (h : ∀ y ∈ l, y.1 < x.1)
    (h' : ∀ y ∈ l', x.1 < y.1) : insertEntry x (l ++ l') = l ++ x :: l' := by
  induction l with
  | nil =>
    cases l' with
    | nil => rfl
    | cons y l' =>
      rw [nil_append, nil_append, insertEntry, if_pos (h' y (mem_cons_self ..))]
  | cons y l ih =>
    have hy := h y (mem_cons_self ..)
    rw [cons_append, insertEntry, if_neg hy.not_gt, if_neg hy.ne', cons_append,
      ih fun z hz => h z (mem_cons_of_mem _ hz)]

theorem dlookup_single_ne {k : K} {x : Sigma E} (h : k ≠ x.1) : dlookup k [x] = none := by
  rw [dlookup_cons_ne _ _ h, dlookup_nil]

/-- A key below all those of a list is not in it. -/
theorem dlookup_eq_none_of_lt {k : K} {l : List (Sigma E)} (h : ∀ y ∈ l, k < y.1) :
    dlookup k l = none :=
  dlookup_eq_none.mpr (ne_key.mpr fun y hy => (h y hy).ne)

theorem dlookup_eq_none_of_gt {k : K} {l : List (Sigma E)} (h : ∀ y ∈ l, y.1 < k) :
    dlookup k l = none :=
  dlookup_eq_none.mpr (ne_key.mpr fun y hy => (h y hy).ne')

theorem dlookup_insertEntry (k : K) (x : Sigma E) {l : List (Sigma E)} (h : Sorted l) :
    dlookup k (insertEntry x l) = (dlookup k l).or (dlookup k [x]) := by
  induction l with
  | nil => rfl
  | cons y l ih =>
    obtain ⟨hy, hl⟩ := sorted_cons.mp h
    unfold insertEntry
    split
    · rename_i hlt
      by_cases hk : k = x.1
      · subst hk
        have hnone : dlookup x.1 (y :: l) = none := by
          apply dlookup_eq_none_of_lt
          intro z hz
          rcases mem_cons.mp hz with rfl | hz
          · exact hlt
          · exact hlt.trans (hy z hz)
        rw [hnone, Option.none_or, dlookup_cons_eq, dlookup_cons_eq]
      · rw [dlookup_cons_ne _ _ hk, dlookup_single_ne hk, Option.or_none]
    · split
      · rename_i heq
        by_cases hk : k = x.1
        · rw [hk, heq, dlookup_cons_eq, Option.some_or]
        · rw [dlookup_single_ne hk, Option.or_none]
      · by_cases hk : k = y.1
        · rw [hk, dlookup_cons_eq, dlookup_cons_eq, Option.some_or]
        · rw [dlookup_cons_ne _ _ hk, dlookup_cons_ne _ _ hk, ih hl]

/-! ### The merge -/

/-- A position in a map: the entries before it, and those from it on. -/
structure Position (E : K → Type*) where
  passed : List (Sigma E)
  rest : List (Sigma E)

/-- The key of the entry is below `k`. -/
def below (k : K) (x : Sigma E) : Bool := x.1 < k

/-- The map. -/
def Position.entries (p : Position E) : List (Sigma E) := p.passed ++ p.rest

/-- The position goes forward to the first key that is not below `k`. -/
def Position.advance (p : Position E) (k : K) : Position E :=
  ⟨p.passed ++ p.rest.takeWhile (below k), p.rest.dropWhile (below k)⟩

/-- Insert an entry in the map, and go to it. -/
def Position.insert (p : Position E) (x : Sigma E) : Position E :=
  let l := insertEntry x p.entries
  ⟨l.takeWhile (below x.1), l.dropWhile (below x.1)⟩

/-- Go forward to the key of an entry, and combine the entry there with it.  If there is none,
insert it and go to it. -/
def Position.merge (combine : ∀ k, E k → E k → E k) (p : Position E) (x : Sigma E) : Position E :=
  let p := p.advance x.1
  match p.rest with
  | [] => p.insert x
  | y :: rest =>
    if h : x.1 = y.1 then ⟨p.passed, ⟨y.1, combine y.1 y.2 (h ▸ x.2)⟩ :: rest⟩
    else if x.1 < y.1 then p.insert x
    else p

/-- Merge the entries of a map in order, from the first position on. -/
def mergeEntries (combine : ∀ k, E k → E k → E k) (l l' : List (Sigma E)) : List (Sigma E) :=
  (l'.foldl (Position.merge combine) ⟨[], l⟩).entries

/-- What holds of a position after an entry with the key `k`. -/
structure Position.Ok (p : Position E) (k : K) : Prop where
  sorted : Sorted p.entries
  passed : ∀ y ∈ p.passed, y.1 < k

theorem Position.entries_advance (p : Position E) (k : K) : (p.advance k).entries = p.entries := by
  rw [entries, advance, append_assoc, takeWhile_append_dropWhile, entries]

theorem Position.Ok.advance {p : Position E} {k : K} (h : p.Ok k) : (p.advance k).Ok k := by
  constructor
  · rw [entries_advance]
    exact h.sorted
  · intro y hy
    rcases mem_append.mp hy with hy | hy
    · exact h.passed y hy
    · have := mem_takeWhile_imp hy
      exact of_decide_eq_true this

theorem le_of_mem_dropWhile {k : K} {l : List (Sigma E)} (h : Sorted l) {y : Sigma E}
    (hy : y ∈ l.dropWhile (below k)) : k ≤ y.1 := by
  induction l with
  | nil => cases hy
  | cons x l ih =>
    obtain ⟨hx, hl⟩ := sorted_cons.mp h
    by_cases hlt : x.1 < k
    · have hpos : below k x = true := decide_eq_true hlt
      rw [dropWhile_cons_of_pos hpos] at hy
      exact ih hl hy
    · rw [dropWhile_cons_of_neg (by simpa [below] using hlt)] at hy
      rcases mem_cons.mp hy with rfl | hy
      · exact not_lt.mp hlt
      · exact (not_lt.mp hlt).trans (hx y hy).le

theorem Position.Ok.advance_rest {p : Position E} {k : K} (h : p.Ok k) :
    ∀ y ∈ (p.advance k).rest, k ≤ y.1 := by
  intro y hy
  exact le_of_mem_dropWhile (sorted_append.mp h.sorted).2.1 hy

/-- Between smaller and larger keys an entry is inserted at the position. -/
theorem Position.insert_eq {p : Position E} {x : Sigma E} (h : ∀ y ∈ p.passed, y.1 < x.1)
    (h' : ∀ y ∈ p.rest, x.1 < y.1) : p.insert x = ⟨p.passed, x :: p.rest⟩ := by
  have hpos : ∀ y ∈ p.passed, below x.1 y = true := fun y hy => decide_eq_true (h y hy)
  simp only [insert, entries]
  rw [insertEntry_append h h', takeWhile_append_of_pos hpos, dropWhile_append_of_pos hpos,
    takeWhile_cons_of_neg (by simp [below]), dropWhile_cons_of_neg (by simp [below]), append_nil]

/-- What one entry does to the map: it is combined with the one of the same key. -/
structure Merged (combine : ∀ k, E k → E k → E k) (p p' : Position E) (x : Sigma E) : Prop where
  ok : p'.Ok x.1
  lookup : ∀ k, dlookup k p'.entries = (dlookup k p.entries).merge (combine k) (dlookup k [x])

variable {combine : ∀ k, E k → E k → E k} {p : Position E}

theorem merged_insert {x : Sigma E} (h : p.Ok x.1) (hrest : ∀ y ∈ p.rest, x.1 < y.1) :
    Merged combine p (p.insert x) x := by
  have heq := Position.insert_eq h.passed hrest
  have hlookup : ∀ k, dlookup k (p.insert x).entries =
      (dlookup k p.entries).merge (combine k) (dlookup k [x]) := by
    intro k
    rw [heq]
    simp only [Position.entries, dlookup_append]
    by_cases hk : k = x.1
    · subst hk
      rw [dlookup_eq_none_of_gt h.passed, dlookup_eq_none_of_lt hrest, dlookup_cons_eq,
        dlookup_cons_eq]
      rfl
    · rw [dlookup_cons_ne _ _ hk, dlookup_single_ne hk, Option.merge_none_right]
  refine ⟨⟨?_, ?_⟩, hlookup⟩
  · rw [heq]
    obtain ⟨hpassed, hr, hlt⟩ := sorted_append.mp h.sorted
    refine sorted_append.mpr ⟨hpassed, sorted_cons.mpr ⟨hrest, hr⟩, fun y hy z hz => ?_⟩
    rcases mem_cons.mp hz with rfl | hz
    · exact h.passed y hy
    · exact hlt y hy z hz
  · rw [heq]
    exact h.passed

theorem merged_combine {y : Sigma E} {rest : List (Sigma E)} (h : p.Ok y.1)
    (hrest : p.rest = y :: rest) (e : E y.1) :
    Merged combine p ⟨p.passed, ⟨y.1, combine y.1 y.2 e⟩ :: rest⟩ ⟨y.1, e⟩ := by
  obtain ⟨passed, _⟩ := p
  subst hrest
  have hpassed : ∀ z ∈ passed, z.1 < y.1 := h.passed
  have hsorted : Sorted (passed ++ y :: rest) := h.sorted
  obtain ⟨hp, hr, hlt⟩ := sorted_append.mp hsorted
  obtain ⟨hy, hl⟩ := sorted_cons.mp hr
  refine ⟨⟨?_, hpassed⟩, ?_⟩
  · refine sorted_append.mpr ⟨hp, sorted_cons.mpr ⟨hy, hl⟩, fun z hz w hw => ?_⟩
    rcases mem_cons.mp hw with rfl | hw
    · exact hpassed z hz
    · exact hlt z hz w (mem_cons_of_mem _ hw)
  · intro k
    simp only [Position.entries, dlookup_append]
    by_cases hk : k = y.1
    · subst hk
      rw [dlookup_eq_none_of_gt hpassed, dlookup_cons_eq, dlookup_cons_eq, dlookup_cons_eq]
      rfl
    · rw [dlookup_cons_ne rest y hk, dlookup_cons_ne rest ⟨y.1, combine y.1 y.2 e⟩ hk,
        dlookup_single_ne (x := ⟨y.1, e⟩) hk, Option.merge_none_right]

theorem Position.Ok.merge {x : Sigma E} (h : p.Ok x.1) :
    Merged combine p (p.merge combine x) x := by
  have hadv := h.advance
  have hle := h.advance_rest
  have hentries := p.entries_advance x.1
  obtain ⟨k, e⟩ := x
  have hmerged : Merged combine (p.advance k) (p.merge combine ⟨k, e⟩) ⟨k, e⟩ := by
    unfold Position.merge
    cases hr : (p.advance k).rest with
    | nil =>
      simp only [hr]
      exact merged_insert hadv (by rw [hr]; nofun)
    | cons y rest =>
      obtain ⟨j, f⟩ := y
      simp only [hr]
      by_cases heq : k = j
      · subst heq
        rw [dif_pos rfl]
        exact merged_combine (y := ⟨k, f⟩) hadv hr e
      · rw [hr] at hle
        have hlt : k < j := lt_of_le_of_ne (hle _ (mem_cons_self ..)) heq
        have hsorted := (sorted_append.mp hadv.sorted).2.1
        rw [dif_neg heq, if_pos hlt]
        refine merged_insert hadv fun z hz => ?_
        rw [hr] at hz hsorted
        rcases mem_cons.mp hz with rfl | hz
        · exact hlt
        · exact hlt.trans ((sorted_cons.mp hsorted).1 z hz)
  exact ⟨hmerged.ok, fun j => by rw [hmerged.lookup, hentries]⟩

theorem foldl_merge {l : List (Sigma E)} (hl : Sorted l) (hsorted : Sorted p.entries)
    (hpassed : ∀ x ∈ l, ∀ y ∈ p.passed, y.1 < x.1) :
    Sorted (l.foldl (Position.merge combine) p).entries ∧
      ∀ k, dlookup k (l.foldl (Position.merge combine) p).entries =
        (dlookup k p.entries).merge (combine k) (dlookup k l) := by
  induction l generalizing p with
  | nil =>
    refine ⟨hsorted, fun k => ?_⟩
    rw [dlookup_nil, Option.merge_none_right]
    rfl
  | cons x l ih =>
    obtain ⟨hx, hl⟩ := sorted_cons.mp hl
    have hok : p.Ok x.1 := ⟨hsorted, hpassed x (mem_cons_self ..)⟩
    have hstep : Merged combine p (p.merge combine x) x := hok.merge
    have hnext : ∀ z ∈ l, ∀ y ∈ (p.merge combine x).passed, y.1 < z.1 :=
      fun z hz y hy => (hstep.ok.passed y hy).trans (hx z hz)
    obtain ⟨hsorted', hlookup⟩ := ih hl hstep.ok.sorted hnext
    refine ⟨hsorted', fun k => ?_⟩
    rw [foldl_cons, hlookup, hstep.lookup]
    by_cases hk : k = x.1
    · subst hk
      rw [dlookup_eq_none_of_lt hx, dlookup_cons_eq, dlookup_cons_eq, Option.merge_none_right]
    · rw [dlookup_single_ne hk, dlookup_cons_ne _ _ hk, Option.merge_none_right]

/-- The merge of two maps in one pass. -/
theorem mergeEntries_spec {l l' : List (Sigma E)} (hl : Sorted l) (hl' : Sorted l') :
    Sorted (mergeEntries combine l l') ∧
      ∀ k, dlookup k (mergeEntries combine l l') =
        (dlookup k l).merge (combine k) (dlookup k l') :=
  foldl_merge (p := ⟨[], l⟩) hl' hl nofun

/-! ### Maps -/

/-- The entry of a key. -/
def lookup (k : K) (m : SortedMap E) : Option (E k) := dlookup k m.entries

def empty : SortedMap E := ⟨[], Pairwise.nil⟩

/-- Insert an entry, unless its key is present. -/
def insert (m : SortedMap E) (x : Sigma E) : SortedMap E :=
  ⟨insertEntry x m.entries, insertEntry_sorted x m.sorted⟩

theorem map_sorted {E' : K → Type*} (f : ∀ k, E k → E' k) {l : List (Sigma E)} (h : Sorted l) :
    Sorted (l.map (Sigma.map id f)) :=
  pairwise_map.mpr h

/-- Change every entry. -/
def map (f : ∀ k, E k → E k) (m : SortedMap E) : SortedMap E :=
  ⟨m.entries.map (Sigma.map id f), map_sorted f m.sorted⟩

/-- Change the entry of one key. -/
def modify (k : K) (f : E k → E k) (m : SortedMap E) : SortedMap E :=
  m.map (Function.update (fun _ e => e) k f)

/-- Merge a map into `m` in one pass. -/
def merge (combine : ∀ k, E k → E k → E k) (m m' : SortedMap E) : SortedMap E :=
  ⟨mergeEntries combine m.entries m'.entries, (mergeEntries_spec m.sorted m'.sorted).1⟩

/-- The map of the given entries, inserted one after the other. -/
def ofEntries (l : List (Sigma E)) : SortedMap E := l.foldl insert empty

variable {k : K} {m : SortedMap E}

@[simp] theorem lookup_empty : lookup k (empty : SortedMap E) = none := rfl

theorem lookup_insert (k : K) (m : SortedMap E) (x : Sigma E) :
    lookup k (m.insert x) = (lookup k m).or (dlookup k [x]) :=
  dlookup_insertEntry k x m.sorted

theorem lookup_insert_self {e : E k} (h : lookup k m = none) :
    lookup k (m.insert ⟨k, e⟩) = some e := by
  rw [lookup_insert, h, dlookup_cons_eq, Option.none_or]

theorem lookup_insert_ne {x : Sigma E} (h : k ≠ x.1) : lookup k (m.insert x) = lookup k m := by
  rw [lookup_insert, dlookup_single_ne h, Option.or_none]

@[simp] theorem lookup_map (f : ∀ k, E k → E k) : lookup k (m.map f) = (lookup k m).map (f k) :=
  dlookup_map₂ k

@[simp] theorem lookup_modify_self (f : E k → E k) :
    lookup k (m.modify k f) = (lookup k m).map f := by
  rw [modify, lookup_map, Function.update_self]

theorem lookup_modify_ne {j : K} (h : k ≠ j) (f : E j → E j) :
    lookup k (m.modify j f) = lookup k m := by
  rw [modify, lookup_map, Function.update_of_ne h, Option.map_id']

theorem isSome_lookup_modify {j : K} (f : E j → E j) :
    (lookup k (m.modify j f)).isSome = (lookup k m).isSome := by
  rw [modify, lookup_map, Option.isSome_map]

@[simp] theorem lookup_merge (combine : ∀ k, E k → E k → E k) (m' : SortedMap E) :
    lookup k (m.merge combine m') = (lookup k m).merge (combine k) (lookup k m') :=
  (mergeEntries_spec m.sorted m'.sorted).2 k

theorem lookup_foldl_insert (l : List (Sigma E)) :
    lookup k (l.foldl insert m) = (lookup k m).or (dlookup k l) := by
  induction l generalizing m with
  | nil => rw [foldl_nil, dlookup_nil, Option.or_none]
  | cons x l ih =>
    have hcons : dlookup k (x :: l) = (dlookup k [x]).or (dlookup k l) := dlookup_append [x] l k
    rw [foldl_cons, ih, lookup_insert, Option.or_assoc, hcons]

@[simp] theorem lookup_ofEntries : lookup k (ofEntries m.entries) = lookup k m := by
  rw [ofEntries, lookup_foldl_insert, lookup_empty, Option.none_or]
  rfl

end SortedMap
