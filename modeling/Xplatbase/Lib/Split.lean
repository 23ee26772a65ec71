import Mathlib.Data.List.Infix
import Mathlib.Tactic.Cases

/-! Cutting a list at the leftmost non-overlapping occurrences of a delimiter. -/
namespace Xplatbase.Lib

variable {α : Type*} {d xs seg rest : List α} {segs : List (List α)}

/-- `segs` is what is left of `xs` between the occurrences of `d`, each the leftmost one after the
one before. -/
inductive Split (d : List α) : List α → List (List α) → Prop
  | last {xs : List α} (h : ¬d <:+: xs) : Split d xs [xs]
  | cut {seg rest : List α} {segs : List (List α)}
      (h : ∀ i < seg.length, ¬d <+: (seg ++ (d ++ rest)).drop i) (hs : Split d rest segs) :
      Split d (seg ++ (d ++ rest)) (seg :: segs)

theorem Split.ne_nil (h : Split d xs segs) : segs ≠ [] := by
  cases h <;> exact List.cons_ne_nil _ _

theorem intercalate_cons (hs : segs ≠ []) :
    d.intercalate (seg :: segs) = seg ++ (d ++ d.intercalate segs) := by
  cases segs with
  | nil => exact absurd rfl hs
  | cons s segs => simp [List.intercalate]

theorem Split.intercalate (h : Split d xs segs) : d.intercalate segs = xs := by
  induction h with
  | last _ => simp [List.intercalate]
  | cut h hs ih => rw [intercalate_cons hs.ne_nil, ih]

theorem not_infix_of_leftmost (hd : d ≠ [])
    (h : ∀ i < seg.length, ¬d <+: (seg ++ (d ++ rest)).drop i) : ¬d <:+: seg := by
  rintro ⟨a, b, rfl⟩
  have hpos := List.length_pos_iff.mpr hd
  apply h a.length
  · simp only [List.length_append]
    omega
  · rw [List.append_assoc, List.append_assoc, List.drop_left]
    exact List.prefix_append _ _

theorem Split.not_infix (hd : d ≠ []) (h : Split d xs segs) : ∀ seg ∈ segs, ¬d <:+: seg := by
  induction h with
  | last h =>
    intro seg hseg
    rwa [List.mem_singleton.mp hseg]
  | cut h hs ih =>
    intro seg hseg
    rcases List.mem_cons.mp hseg with rfl | hseg
    · exact not_infix_of_leftmost hd h
    · exact ih seg hseg

/-- The leftmost split is the only one. -/
theorem Split.unique {segs' : List (List α)} (h : Split d xs segs) (h' : Split d xs segs') :
    segs = segs' := by
  induction h generalizing segs' with
  | last h =>
    cases h' with
    | last => rfl
    | cut => exact absurd ⟨_, _, List.append_assoc ..⟩ h
  | @cut seg rest segs h hs ih =>
    generalize hx : seg ++ (d ++ rest) = xs at h'
    cases h' with
    | last h' =>
      subst hx
      exact absurd ⟨_, _, List.append_assoc ..⟩ h'
    | @cut seg' rest' segs' h' hs' =>
      -- neither cut can come before the other
      have hle : ¬seg.length < seg'.length := fun hlt => by
        apply h' seg.length hlt
        rw [← hx, List.drop_left]
        exact List.prefix_append _ _
      have hge : ¬seg'.length < seg.length := fun hlt => by
        apply h seg'.length hlt
        rw [hx, List.drop_left]
        exact List.prefix_append _ _
      obtain ⟨rfl, hrest⟩ := List.append_inj hx (by omega)
      obtain rfl := List.append_cancel_left hrest
      rw [ih hs']

variable [DecidableEq α]

/-- Where the leftmost non-overlapping occurrences of `d` begin, in a text that begins at position
`i` and whose first `skip` elements belong to an occurrence before it. -/
def occurrencesFrom (d : List α) : ℕ → ℕ → List α → List ℕ
  | _, _, [] => []
  | 0, i, x :: xs =>
    if d <+: x :: xs then i :: occurrencesFrom d (d.length - 1) (i + 1) xs
    else occurrencesFrom d 0 (i + 1) xs
  | skip + 1, i, _ :: xs => occurrencesFrom d skip (i + 1) xs

def occurrences (d xs : List α) : List ℕ := occurrencesFrom d 0 0 xs

theorem occurrencesFrom_skip (d : List α) (skip i : ℕ) (xs : List α) :
    occurrencesFrom d skip i xs = occurrencesFrom d 0 (i + skip) (xs.drop skip) := by
  induction skip generalizing i xs with
  | zero => rfl
  | succ skip ih =>
    cases xs with
    | nil =>
      rw [List.drop_nil]
      cases skip <;> rfl
    | cons x xs =>
      rw [List.drop_succ_cons, occurrencesFrom, ih, Nat.add_right_comm, Nat.add_assoc]

theorem occurrencesFrom_hit (hd : d ≠ []) (i : ℕ) (h : d <+: xs) :
    occurrencesFrom d 0 i xs = i :: occurrencesFrom d 0 (i + d.length) (xs.drop d.length) := by
  have hpos := List.length_pos_iff.mpr hd
  cases xs with
  | nil => exact absurd (List.prefix_nil.mp h) hd
  | cons x xs =>
    rw [occurrencesFrom, if_pos h, occurrencesFrom_skip, Nat.add_assoc,
      Nat.add_sub_cancel' hpos]
    obtain ⟨n, hn⟩ := Nat.exists_eq_add_of_le' hpos
    rw [hn, List.drop_succ_cons, Nat.add_sub_cancel]

theorem occurrencesFrom_miss (i : ℕ) (h : ¬d <+: xs) :
    occurrencesFrom d 0 i xs = occurrencesFrom d 0 (i + 1) (xs.drop 1) := by
  cases xs with
  | nil => rfl
  | cons x xs =>
    rw [occurrencesFrom, if_neg h]
    rfl

theorem occurrencesFrom_eq_nil (i : ℕ) (h : ¬d <:+: xs) : occurrencesFrom d 0 i xs = [] := by
  induction xs generalizing i with
  | nil => rfl
  | cons x xs ih =>
    rw [occurrencesFrom_miss i fun hp => h hp.isInfix]
    exact ih _ fun hin => h (hin.trans (List.suffix_cons x xs).isInfix)

/-- Positions at which `d` does not begin are passed over. -/
theorem occurrencesFrom_pass (i : ℕ) {n : ℕ} (h : ∀ j < n, ¬d <+: xs.drop j) :
    occurrencesFrom d 0 i xs = occurrencesFrom d 0 (i + n) (xs.drop n) := by
  induction n with
  | zero => rfl
  | succ n ih =>
    rw [ih fun j hj => h j (Nat.lt_succ_of_lt hj), occurrencesFrom_miss _ (h n (Nat.lt_succ_self n)),
      List.drop_drop, Nat.add_assoc]

theorem Split.length_eq (hd : d ≠ []) (h : Split d xs segs) (i : ℕ) :
    segs.length = (occurrencesFrom d 0 i xs).length + 1 := by
  induction h generalizing i with
  | last h => rw [occurrencesFrom_eq_nil i h]; rfl
  | cut h hs ih =>
    rw [occurrencesFrom_pass i h, List.drop_left, occurrencesFrom_hit hd _ (List.prefix_append _ _),
      List.drop_left, List.length_cons, List.length_cons, ← ih]

/-! ### A scan from the left -/

/-- A scan at position `i` of `xs` has cut off `segs`, and the current segment begins at
`start`. -/
structure Scan (d xs : List α) (start i : ℕ) (segs : List (List α)) : Prop where
  start_le : start ≤ i
  le_length : i ≤ xs.length
  missed : ∀ j, start ≤ j → j < i → ¬d <+: xs.drop j
  rest : ∀ tl, Split d (xs.drop start) tl → Split d xs (segs ++ tl)
  found : ∃ l, occurrences d xs = l ++ occurrencesFrom d 0 i (xs.drop i)

variable {start i : ℕ}

theorem Scan.init (d xs : List α) : Scan d xs 0 0 [] where
  start_le := le_rfl
  le_length := Nat.zero_le _
  missed := fun j _ hj => absurd hj (Nat.not_lt_zero j)
  rest := fun _ h => h
  found := ⟨[], rfl⟩

theorem Scan.miss (h : Scan d xs start i segs) (hi : i < xs.length) (hd : ¬d <+: xs.drop i) :
    Scan d xs start (i + 1) segs where
  start_le := Nat.le_succ_of_le h.start_le
  le_length := hi
  missed := fun j hj hji => by
    rcases Nat.lt_succ_iff_lt_or_eq.mp hji with hlt | rfl
    · exact h.missed j hj hlt
    · exact hd
  rest := h.rest
  found := by
    obtain ⟨l, hl⟩ := h.found
    refine ⟨l, ?_⟩
    rw [hl, occurrencesFrom_miss i hd, List.drop_drop]

/-- The text from `start` on, cut at `i`. -/
theorem Scan.drop_start (h : Scan d xs start i segs) (hd : d <+: xs.drop i) :
    xs.drop start =
      (xs.drop start).take (i - start) ++ (d ++ xs.drop (i + d.length)) := by
  obtain ⟨r, hr⟩ := hd
  have hi := h.start_le
  have hdrop : (xs.drop start).drop (i - start) = xs.drop i := by
    rw [List.drop_drop, Nat.add_sub_cancel' hi]
  have hrest : xs.drop (i + d.length) = r := by
    rw [← List.drop_drop, ← hr, List.drop_left]
  rw [hrest, hr, ← hdrop, List.take_append_drop]

theorem Scan.hit (hd : d ≠ []) (h : Scan d xs start i segs) (hi : d <+: xs.drop i) :
    Scan d xs (i + d.length) (i + d.length)
      (segs ++ [(xs.drop start).take (i - start)]) where
  start_le := le_rfl
  le_length := by
    have hlen := hi.length_le
    have hle := h.le_length
    rw [List.length_drop] at hlen
    omega
  missed := fun j h1 h2 => absurd h2 (not_lt.mpr h1)
  rest := fun tl htl => by
    rw [List.append_assoc]
    apply h.rest
    have hcut : Split d ((xs.drop start).take (i - start) ++ (d ++ xs.drop (i + d.length)))
        ((xs.drop start).take (i - start) :: tl) := by
      apply Split.cut _ htl
      intro j hj
      rw [List.length_take] at hj
      rw [← h.drop_start hi, List.drop_drop]
      exact h.missed _ (Nat.le_add_right _ _) (by omega)
    rwa [← h.drop_start hi] at hcut
  found := by
    obtain ⟨l, hl⟩ := h.found
    refine ⟨l ++ [i], ?_⟩
    rw [hl, occurrencesFrom_hit hd i hi, List.drop_drop, List.append_assoc]
    rfl

theorem Scan.mem_occurrences (hd : d ≠ []) (h : Scan d xs start i segs) (hi : d <+: xs.drop i) :
    i ∈ occurrences d xs := by
  obtain ⟨l, hl⟩ := h.found
  rw [hl, occurrencesFrom_hit hd i hi]
  simp

/-- No occurrence begins at `i` or later. -/
theorem Scan.finish (hd : d ≠ []) (h : Scan d xs start i segs) (hi : xs.length < i + d.length) :
    Split d xs (segs ++ [xs.drop start]) := by
  apply h.rest
  apply Split.last
  rintro ⟨a, b, hab⟩
  have hpre : d <+: xs.drop (start + a.length) := by
    rw [← List.drop_drop, ← hab, List.append_assoc, List.drop_left]
    exact List.prefix_append _ _
  by_cases hlt : start + a.length < i
  · exact h.missed _ (Nat.le_add_right _ _) hlt hpre
  · have hlen := hpre.length_le
    have hpos := List.length_pos_iff.mpr hd
    rw [List.length_drop] at hlen
    omega

end Xplatbase.Lib
