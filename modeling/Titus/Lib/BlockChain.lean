import Mathlib.Data.Fintype.Card
import Titus.Lib.Announcement
import Titus.Lib.Tiling

/-! The blocks that writers have reserved, in the order of their reservation: those that the reader
has passed, and after them those that are announced or pending, each exactly once. -/

namespace Announcement

variable {ι α : Type*}

/-- The blocks `taken` are passed, up to index `k`, and the blocks `rest` are announced or pending,
up to index `total`.  A block is given by its first index and its length. -/
structure Chain (taken rest : List (ℕ × ℕ)) (k total : ℕ) (posted : List (Block α))
    (carried : ι → Option (Block α)) (announced : ℕ → ℕ) : Prop where
  taken_tiles : Tiling.Tiles id 0 k taken
  rest_tiles : Tiling.Tiles id k total rest
  taken_pos : ∀ b ∈ taken, 0 < b.2
  rest_pos : ∀ b ∈ rest, 0 < b.2
  kept : ∀ b ∈ rest, announced b.1 = b.2 ∨
    ∃ c, Pending posted carried c ∧ c.first = b.1 ∧ c.length = b.2
  pending : ∀ c, Pending posted carried c → (c.first, c.length) ∈ rest
  announced_mem : ∀ j, announced j ≠ 0 → (j, announced j) ∈ rest

/-- The announcements of index `j`, made or still to be made. -/
def notices [Fintype ι] (posted : List (Block α)) (carried : ι → Option (Block α))
    (announced : ℕ → ℕ) (j : ℕ) : ℕ :=
  posted.countP (fun b => b.first = j) +
    (Finset.univ.filter fun i => (carried i).any fun b => b.first = j).card +
    if announced j = 0 then 0 else 1

variable {slots : List α} {arrived : α → Prop} {taken rest : List (ℕ × ℕ)} {k total : ℕ}
  {posted posted' : List (Block α)} {carried carried' : ι → Option (Block α)}
  {announced : ℕ → ℕ} {b : Block α} {i : ι}

/-! ### Blocks in a row -/

/-- A block that begins where the row does is the first one. -/
theorem head_of_tiles (h : Tiling.Tiles id k total rest) (hpos : ∀ b ∈ rest, 0 < b.2) {l : ℕ}
    (hmem : (k, l) ∈ rest) : ∃ rest', rest = (k, l) :: rest' := by
  cases rest with
  | nil => cases hmem
  | cons b rest =>
    obtain ⟨hb, htail⟩ := h
    rcases List.mem_cons.mp hmem with rfl | hmem
    · exact ⟨rest, rfl⟩
    · have hge := (htail.mem_range hmem).1
      have hlt := hpos b (List.mem_cons_self ..)
      simp only [id_eq] at hge
      omega

theorem eq_nil_of_tiles (h : Tiling.Tiles id k k rest) (hpos : ∀ b ∈ rest, 0 < b.2) :
    rest = [] := by
  cases rest with
  | nil => rfl
  | cons b rest =>
    obtain ⟨-, htail⟩ := h
    have hle := htail.le
    have hlt := hpos b (List.mem_cons_self ..)
    simp only [id_eq] at hle
    omega

/-- Blocks of a row with the same first index are the same. -/
theorem length_eq_of_tiles (h : Tiling.Tiles id k total rest) (hpos : ∀ b ∈ rest, 0 < b.2)
    {j l l' : ℕ} (hl : (j, l) ∈ rest) (hl' : (j, l') ∈ rest) : l = l' := by
  induction rest generalizing k with
  | nil => cases hl
  | cons b rest ih =>
    have hb := hpos b (List.mem_cons_self ..)
    have hlater : ∀ m, (j, m) ∈ rest → b.1 < j := by
      intro m hm
      have hge := (h.2.mem_range hm).1
      have hfirst := h.1
      simp only [id_eq] at hge
      omega
    rcases List.mem_cons.mp hl with rfl | hltail
    · rcases List.mem_cons.mp hl' with heq | hltail'
      · exact (Prod.mk.inj heq).2.symm
      · exact absurd (hlater _ hltail') (lt_irrefl _)
    · rcases List.mem_cons.mp hl' with rfl | hltail'
      · exact absurd (hlater _ hltail) (lt_irrefl _)
      · exact ih h.2 (fun b hb => hpos b (List.mem_cons_of_mem _ hb)) hltail hltail'

/-- A row has one block at each index where one begins. -/
theorem countP_of_tiles (h : Tiling.Tiles id k total rest) (hpos : ∀ b ∈ rest, 0 < b.2) (j : ℕ) :
    rest.countP (fun b => b.1 = j) = if ∃ b ∈ rest, b.1 = j then 1 else 0 := by
  induction rest generalizing k with
  | nil => simp
  | cons b rest ih =>
    have hb := hpos b (List.mem_cons_self ..)
    have hrest := ih h.2 fun c hc => hpos c (List.mem_cons_of_mem _ hc)
    rw [List.countP_cons, hrest]
    by_cases hj : b.1 = j
    · have hno : ¬ ∃ c ∈ rest, c.1 = j := by
        rintro ⟨c, hc, hcj⟩
        have hge := (h.2.mem_range hc).1
        have hfirst := h.1
        simp only [id_eq] at hge
        omega
      have hyes : ∃ c ∈ b :: rest, c.1 = j := ⟨b, List.mem_cons_self .., hj⟩
      rw [if_neg hno, if_pos hyes]
      simp [hj]
    · have hiff : (∃ c ∈ b :: rest, c.1 = j) ↔ ∃ c ∈ rest, c.1 = j := by
        simp [hj]
      simp only [hiff, hj, decide_false, Bool.false_eq_true, if_false, Nat.add_zero]

/-! ### Writers -/

/-- Nothing is reserved, and nothing is on its way. -/
theorem Chain.empty (hno : ∀ c, ¬ Pending posted carried c) (hannounced : ∀ j, announced j = 0) :
    Chain [] [] 0 0 posted carried announced := by
  constructor
  · exact rfl
  · exact rfl
  · rintro _ ⟨⟩
  · rintro _ ⟨⟩
  · rintro _ ⟨⟩
  · exact fun c hc => absurd hc (hno c)
  · exact fun j hj => absurd (hannounced j) hj

/-- The pending blocks change hands, or lose writes. -/
theorem Chain.congr (h : Chain taken rest k total posted carried announced)
    (hpending : ∀ first length, (∃ c, Pending posted' carried' c ∧ c.first = first ∧
      c.length = length) ↔ ∃ c, Pending posted carried c ∧ c.first = first ∧ c.length = length) :
    Chain taken rest k total posted' carried' announced := by
  constructor
  · exact h.taken_tiles
  · exact h.rest_tiles
  · exact h.taken_pos
  · exact h.rest_pos
  · intro b hb
    exact (h.kept b hb).imp_right (hpending b.1 b.2).mpr
  · intro c hc
    obtain ⟨d, hd, hfirst, hlength⟩ := (hpending c.first c.length).mp ⟨c, hc, rfl, rfl⟩
    have := h.pending d hd
    rwa [hfirst, hlength] at this
  · exact h.announced_mem

section Writer

variable [DecidableEq ι]

/-- A writer reserves a block after the others. -/
theorem Chain.reserve (h : Chain taken rest k total posted carried announced) {new : List α}
    (hnew : new ≠ []) (hi : carried i = none) :
    Chain taken (rest ++ [(total, new.length)]) k (total + new.length) posted
      (Function.update carried i (some ⟨total, new.length, new⟩)) announced := by
  have hpos : 0 < new.length := List.length_pos_iff.mpr hnew
  constructor
  · exact h.taken_tiles
  · exact h.rest_tiles.append ⟨rfl, rfl⟩
  · exact h.taken_pos
  · intro b hb
    rcases List.mem_append.mp hb with hb | hb
    · exact h.rest_pos b hb
    · rwa [List.mem_singleton.mp hb]
  · intro b hb
    rcases List.mem_append.mp hb with hb | hb
    · apply (h.kept b hb).imp_right
      rintro ⟨c, hc, heq⟩
      exact ⟨c, (pending_reserve hi c).mpr (.inr hc), heq⟩
    · rw [List.mem_singleton.mp hb]
      exact .inr ⟨_, (pending_reserve hi _).mpr (.inl rfl), rfl, rfl⟩
  · intro c hc
    rcases (pending_reserve hi c).mp hc with rfl | hc
    · exact List.mem_append_right _ (List.mem_singleton.mpr rfl)
    · exact List.mem_append_left _ (h.pending c hc)
  · intro j hj
    exact List.mem_append_left _ (h.announced_mem j hj)

/-- A writer posts its block. -/
theorem Chain.post (h : Chain taken rest k total posted carried announced)
    (hi : carried i = some b) (ws : List α) :
    Chain taken rest k total (posted ++ [{ b with writes := ws }])
      (Function.update carried i none) announced := by
  apply h.congr
  intro first length
  constructor
  · rintro ⟨c, hc | ⟨j, hj⟩, hfirst, hlength⟩
    · rcases List.mem_append.mp hc with hc | hc
      · exact ⟨c, .inl hc, hfirst, hlength⟩
      · rw [List.mem_singleton.mp hc] at hfirst hlength
        exact ⟨b, .inr ⟨i, hi⟩, hfirst, hlength⟩
    · by_cases hji : j = i
      · rw [hji, Function.update_self] at hj
        cases hj
      · rw [Function.update_of_ne hji] at hj
        exact ⟨c, .inr ⟨j, hj⟩, hfirst, hlength⟩
  · rintro ⟨c, hc | ⟨j, hj⟩, hfirst, hlength⟩
    · exact ⟨c, .inl (List.mem_append_left _ hc), hfirst, hlength⟩
    · by_cases hji : j = i
      · rw [hji, hi] at hj
        rw [← Option.some.inj hj] at hfirst hlength
        exact ⟨{ b with writes := ws },
          .inl (List.mem_append_right _ (List.mem_singleton.mpr rfl)), hfirst, hlength⟩
      · refine ⟨c, .inr ⟨j, ?_⟩, hfirst, hlength⟩
        rwa [Function.update_of_ne hji]

end Writer

/-! ### Arrivals -/

/-- A write arrives. -/
theorem Chain.arrive (h : Chain taken rest k total posted carried announced) {m : ℕ}
    (hm : posted[m]? = some b) (ws : List α) :
    Chain taken rest k total (posted.set m { b with writes := ws }) carried announced := by
  obtain ⟨hlt, heq⟩ := List.getElem?_eq_some_iff.mp hm
  apply h.congr
  intro first length
  constructor
  · rintro ⟨c, hc | hc, hfirst, hlength⟩
    · rcases List.mem_or_eq_of_mem_set hc with hc | rfl
      · exact ⟨c, .inl hc, hfirst, hlength⟩
      · exact ⟨b, .inl (List.mem_of_getElem? hm), hfirst, hlength⟩
    · exact ⟨c, .inr hc, hfirst, hlength⟩
  · rintro ⟨c, hc | hc, hfirst, hlength⟩
    · obtain ⟨j, hj, rfl⟩ := List.getElem_of_mem hc
      by_cases hjm : j = m
      · subst hjm
        rw [heq] at hfirst hlength
        exact ⟨_, .inl (List.mem_set hlt _), hfirst, hlength⟩
      · refine ⟨posted[j], .inl (List.mem_iff_getElem?.mpr ⟨j, ?_⟩), hfirst, hlength⟩
        rw [List.getElem?_set_ne (Ne.symm hjm), List.getElem?_eq_getElem hj]
    · exact ⟨c, .inr hc, hfirst, hlength⟩

/-- A block is announced at its first index. -/
theorem Chain.announce (h : Chain taken rest k total posted carried announced) {m : ℕ}
    (hm : posted[m]? = some b) :
    Chain taken rest k total (posted.eraseIdx m) carried
      (Function.update announced b.first b.length) := by
  have hb := h.pending b (.inl (List.mem_of_getElem? hm))
  obtain ⟨hlt, heq⟩ := List.getElem?_eq_some_iff.mp hm
  constructor
  · exact h.taken_tiles
  · exact h.rest_tiles
  · exact h.taken_pos
  · exact h.rest_pos
  · intro d hd
    by_cases hdb : d.1 = b.first
    · left
      rw [hdb, Function.update_self]
      exact length_eq_of_tiles h.rest_tiles h.rest_pos hb (hdb ▸ hd)
    · rw [Function.update_of_ne hdb]
      apply (h.kept d hd).imp_right
      rintro ⟨c, hc | hc, hfirst, hlength⟩
      · refine ⟨c, .inl ?_, hfirst, hlength⟩
        obtain ⟨j, hj, rfl⟩ := List.getElem_of_mem hc
        refine List.mem_eraseIdx_iff_getElem?.mpr ⟨j, ?_, List.getElem?_eq_getElem hj⟩
        rintro rfl
        rw [heq] at hfirst
        exact hdb hfirst.symm
      · exact ⟨c, .inr hc, hfirst, hlength⟩
  · exact fun c hc => h.pending c (pending_announce c hc)
  · intro j hj
    by_cases hjb : j = b.first
    · rwa [hjb, Function.update_self]
    · rw [Function.update_of_ne hjb] at hj ⊢
      exact h.announced_mem j hj

/-! ### The reader -/

/-- The reader consumes the announcement at its index, which is that of the next block. -/
theorem Chain.consume (h : Chain taken rest k total posted carried announced)
    (hok : Ok slots arrived posted carried announced) (hk : announced k ≠ 0) :
    ∃ rest', rest = (k, announced k) :: rest' ∧
      Chain (taken ++ [(k, announced k)]) rest' (k + announced k) total posted carried
        (Function.update announced k 0) := by
  obtain ⟨rest', rfl⟩ := head_of_tiles h.rest_tiles h.rest_pos (h.announced_mem k hk)
  have htail : Tiling.Tiles id (k + announced k) total rest' := h.rest_tiles.2
  have hlater : ∀ b ∈ rest', b.1 ≠ k := by
    intro b hb heq
    have hge := (htail.mem_range hb).1
    omega
  refine ⟨rest', rfl, ?_⟩
  constructor
  · exact h.taken_tiles.append ⟨rfl, rfl⟩
  · exact htail
  · intro b hb
    rcases List.mem_append.mp hb with hb | hb
    · exact h.taken_pos b hb
    · rw [List.mem_singleton.mp hb]
      exact Nat.pos_of_ne_zero hk
  · exact fun b hb => h.rest_pos b (List.mem_cons_of_mem _ hb)
  · intro b hb
    rw [Function.update_of_ne (hlater b hb)]
    exact h.kept b (List.mem_cons_of_mem _ hb)
  · intro c hc
    rcases List.mem_cons.mp (h.pending c hc) with heq | hmem
    · have hapart := hok.announced_pending k hk c hc
      have hpos := hok.length_pos c hc
      have hfirst := (Prod.mk.inj heq).1
      omega
    · exact hmem
  · intro j hj
    have hjk : j ≠ k := by
      rintro rfl
      rw [Function.update_self] at hj
      exact hj rfl
    rw [Function.update_of_ne hjk] at hj ⊢
    rcases List.mem_cons.mp (h.announced_mem j hj) with heq | hmem
    · exact absurd (Prod.mk.inj heq).1 hjk
    · exact hmem

/-- The reader that has passed the last index has passed every block. -/
theorem Chain.rest_eq_nil (h : Chain taken rest total total posted carried announced) :
    rest = [] :=
  eq_nil_of_tiles h.rest_tiles h.rest_pos

/-- Until the reader has passed the last index a block begins at its own. -/
theorem Chain.next_block (h : Chain taken rest k total posted carried announced)
    (hk : k < total) : ∃ l, (k, l) ∈ rest := by
  have hrest := h.rest_tiles
  cases rest with
  | nil => exact absurd hrest.eq_of_nil hk.ne
  | cons b rest =>
    obtain ⟨hb, -⟩ := hrest
    exact ⟨b.2, by rw [← hb]; exact List.mem_cons_self ..⟩

/-! ### Announcements of an index -/

section Notices

variable [Fintype ι]

omit [Fintype ι] in
theorem countP_posted (hok : Ok slots arrived posted carried announced) (hb : b ∈ posted) :
    posted.countP (fun c => c.first = b.first) = 1 := by
  have hpos := fun c hc => hok.length_pos c (.inl hc)
  have hapart := hok.posted_apart
  clear hok
  induction posted with
  | nil => cases hb
  | cons c posted ih =>
    obtain ⟨hc, hrest⟩ := List.pairwise_cons.mp hapart
    have hlen := hpos c (List.mem_cons_self ..)
    rcases List.mem_cons.mp hb with rfl | hb
    · rw [List.countP_cons, List.countP_eq_zero.mpr]
      · simp
      · intro d hd heq
        have hd' := hc d hd
        have hlen' := hpos d (List.mem_cons_of_mem _ hd)
        unfold Apart at hd'
        have := of_decide_eq_true heq
        omega
    · have hne : c.first ≠ b.first := by
        have hd' := hc b hb
        have hlen' := hpos b (List.mem_cons_of_mem _ hb)
        unfold Apart at hd'
        omega
      rw [List.countP_cons, ih hb (fun d hd => hpos d (List.mem_cons_of_mem _ hd)) hrest]
      simp [hne]

theorem card_carried (hok : Ok slots arrived posted carried announced) (hi : carried i = some b) :
    (Finset.univ.filter fun j => (carried j).any fun c => c.first = b.first).card = 1 := by
  rw [Finset.card_eq_one]
  refine ⟨i, Finset.ext fun j => ?_⟩
  simp only [Finset.mem_filter, Finset.mem_univ, true_and, Finset.mem_singleton]
  constructor
  · intro hj
    obtain ⟨c, hc, heq⟩ := (Option.any_eq_true _ _).mp hj
    by_contra hne
    have hapart := hok.carried_carried j i c b hne hc hi
    have h1 := hok.length_pos c (.inr ⟨j, hc⟩)
    have h2 := hok.length_pos b (.inr ⟨i, hi⟩)
    have := of_decide_eq_true heq
    unfold Apart at hapart
    omega
  · rintro rfl
    simp [hi]

/-- Each block that the reader has not passed is announced once at its first index, and nothing else
is announced. -/
theorem Chain.notices_eq (h : Chain taken rest k total posted carried announced)
    (hok : Ok slots arrived posted carried announced) (j : ℕ) :
    notices posted carried announced j = if ∃ b ∈ rest, b.1 = j then 1 else 0 := by
  have hzero : (∀ c, Pending posted carried c → c.first ≠ j) →
      posted.countP (fun b => b.first = j) = 0 ∧
        (Finset.univ.filter fun i => (carried i).any fun b => b.first = j).card = 0 := by
    intro hno
    constructor
    · rw [List.countP_eq_zero]
      exact fun c hc heq => hno c (.inl hc) (of_decide_eq_true heq)
    · rw [Finset.card_eq_zero, Finset.filter_eq_empty_iff]
      intro i _ hany
      obtain ⟨c, hc, heq⟩ := (Option.any_eq_true _ _).mp hany
      exact hno c (.inr ⟨i, hc⟩) (of_decide_eq_true heq)
  unfold notices
  by_cases hj : announced j = 0
  · rw [if_pos hj, Nat.add_zero]
    by_cases hpending : ∃ c, Pending posted carried c ∧ c.first = j
    · obtain ⟨c, hc, rfl⟩ := hpending
      rw [if_pos ⟨_, h.pending c hc, rfl⟩]
      rcases hc with hc | ⟨i, hi⟩
      · have hnone : (Finset.univ.filter fun i =>
            (carried i).any fun b => b.first = c.first).card = 0 := by
          rw [Finset.card_eq_zero, Finset.filter_eq_empty_iff]
          intro i _ hany
          obtain ⟨d, hd, heq⟩ := (Option.any_eq_true _ _).mp hany
          have hapart := hok.carried_posted i d hd c hc
          have h1 := hok.length_pos c (.inl hc)
          have h2 := hok.length_pos d (.inr ⟨i, hd⟩)
          have := of_decide_eq_true heq
          unfold Apart at hapart
          omega
        rw [countP_posted hok hc, hnone]
      · have hnone : posted.countP (fun b => b.first = c.first) = 0 := by
          rw [List.countP_eq_zero]
          intro d hd heq
          have hapart := hok.carried_posted i c hi d hd
          have h1 := hok.length_pos c (.inr ⟨i, hi⟩)
          have h2 := hok.length_pos d (.inl hd)
          have := of_decide_eq_true heq
          unfold Apart at hapart
          omega
        rw [hnone, card_carried hok hi]
    · obtain ⟨h1, h2⟩ := hzero fun c hc heq => hpending ⟨c, hc, heq⟩
      rw [h1, h2, if_neg]
      rintro ⟨b, hb, rfl⟩
      rcases h.kept b hb with hann | ⟨c, hc, hfirst, -⟩
      · have := h.rest_pos b hb
        omega
      · exact hpending ⟨c, hc, hfirst⟩
  · have hno : ∀ c, Pending posted carried c → c.first ≠ j := by
      rintro c hc rfl
      have hapart := hok.announced_pending c.first hj c hc
      have hpos := hok.length_pos c hc
      omega
    obtain ⟨h1, h2⟩ := hzero hno
    rw [h1, h2, if_neg hj, if_pos ⟨_, h.announced_mem j hj, rfl⟩]

/-- Counted with those that the reader has consumed, each block is announced once at its first
index, and nothing else is announced. -/
theorem Chain.notices_total (h : Chain taken rest k total posted carried announced)
    (hok : Ok slots arrived posted carried announced) (j : ℕ) :
    taken.countP (fun b => b.1 = j) + notices posted carried announced j =
      if ∃ b ∈ taken ++ rest, b.1 = j then 1 else 0 := by
  have hpos : ∀ b ∈ taken ++ rest, 0 < b.2 := by
    intro b hb
    exact (List.mem_append.mp hb).elim (h.taken_pos b) (h.rest_pos b)
  rw [h.notices_eq hok, ← countP_of_tiles h.rest_tiles h.rest_pos, ← List.countP_append]
  exact countP_of_tiles (h.taken_tiles.append h.rest_tiles) hpos j

end Notices

end Announcement
