import Mathlib

/-! Tables that repeat in groups. A group is a row of areas, an area a number of cells of one
width, and the groups follow one another behind a header. Different cells are apart. -/

namespace Placement

structure Area where
  width : ℕ
  count : ℕ

def Area.size (a : Area) : ℕ := a.width * a.count

/-- Where area `n` starts in its group. -/
def start : List Area → ℕ → ℕ
  | [], _ => 0
  | _ :: _, 0 => 0
  | a :: as, n + 1 => a.size + start as n

def total (as : List Area) : ℕ := (as.map Area.size).sum

@[ext] structure Cell where
  group : ℕ
  area : ℕ
  row : ℕ

variable {as : List Area} {head : ℕ} {c e : Cell}

def Cell.Valid (as : List Area) (c : Cell) : Prop := ∃ a, as[c.area]? = some a ∧ c.row < a.count

def Cell.width (as : List Area) (c : Cell) : ℕ := (as[c.area]?.map Area.width).getD 0

/-- The place of a cell in its group. -/
def Cell.inner (as : List Area) (c : Cell) : ℕ := start as c.area + c.width as * c.row

def Cell.off (head : ℕ) (as : List Area) (c : Cell) : ℕ :=
  head + c.group * total as + c.inner as

theorem start_succ {n : ℕ} {a : Area} (ha : as[n]? = some a) :
    start as (n + 1) = start as n + a.size := by
  induction as generalizing n with
  | nil => cases ha
  | cons b as ih =>
    cases n with
    | zero =>
      cases ha
      cases as <;> simp [start]
    | succ n =>
      have ha : as[n]? = some a := ha
      rw [start, start, ih ha, Nat.add_assoc]

theorem start_mono : Monotone (start as) := by
  refine monotone_nat_of_le_succ fun n => ?_
  induction as generalizing n with
  | nil => exact le_refl _
  | cons a as ih =>
    cases n with
    | zero => exact Nat.zero_le _
    | succ n => exact Nat.add_le_add_left (ih n) _

theorem start_le_total (n : ℕ) : start as n ≤ total as := by
  induction as generalizing n with
  | nil => exact Nat.zero_le _
  | cons a as ih =>
    cases n with
    | zero => exact Nat.zero_le _
    | succ n => exact Nat.add_le_add_left (ih n) _

theorem Cell.Valid.inner_le (hc : c.Valid as) :
    c.inner as + c.width as ≤ start as (c.area + 1) := by
  obtain ⟨a, ha, hrow⟩ := hc
  have hfit := Nat.mul_le_mul_left a.width hrow
  rw [Nat.mul_succ] at hfit
  rw [start_succ ha, Area.size, inner, width, ha, Option.map_some, Option.getD_some]
  omega

theorem Cell.Valid.inner_le_total (hc : c.Valid as) : c.inner as + c.width as ≤ total as :=
  hc.inner_le.trans (start_le_total _)

theorem Cell.Valid.group_le (hc : c.Valid as) :
    head + c.group * total as ≤ c.off head as ∧
      c.off head as + c.width as ≤ head + (c.group + 1) * total as := by
  have hle := hc.inner_le_total
  rw [Nat.succ_mul, off]
  omega

theorem Cell.Valid.end_le {n : ℕ} (hc : c.Valid as) (hn : c.group < n) :
    c.off head as + c.width as ≤ head + n * total as := by
  have hle := Nat.mul_le_mul_right (total as) hn
  have hin := @group_le as head c hc
  rw [Nat.succ_eq_add_one] at hle
  omega

theorem off_lt_of_group_lt (hc : c.Valid as) (he : e.Valid as) (hlt : c.group < e.group) :
    c.off head as + c.width as ≤ e.off head as :=
  (hc.end_le hlt).trans he.group_le.1

theorem inner_lt_of_area_lt (hc : c.Valid as) (hlt : c.area < e.area) :
    c.inner as + c.width as ≤ e.inner as :=
  hc.inner_le.trans ((start_mono hlt).trans (Nat.le_add_right _ _))

theorem inner_lt_of_row_lt (ha : c.area = e.area) (hlt : c.row < e.row) :
    c.inner as + c.width as ≤ e.inner as := by
  have hle := Nat.mul_le_mul_left (e.width as) hlt
  rw [Nat.mul_succ] at hle
  have hw : c.width as = e.width as := by rw [Cell.width, Cell.width, ha]
  rw [Cell.inner, Cell.inner, ha, hw]
  omega

theorem Cell.apart (hc : c.Valid as) (he : e.Valid as) (hne : c ≠ e) :
    c.off head as + c.width as ≤ e.off head as ∨ e.off head as + e.width as ≤ c.off head as := by
  rcases Nat.lt_trichotomy c.group e.group with hg | hg | hg
  · exact Or.inl (off_lt_of_group_lt hc he hg)
  · have hinner : c.inner as + c.width as ≤ e.inner as ∨ e.inner as + e.width as ≤ c.inner as := by
      rcases Nat.lt_trichotomy c.area e.area with ha | ha | ha
      · exact Or.inl (inner_lt_of_area_lt hc ha)
      · rcases Nat.lt_trichotomy c.row e.row with hr | hr | hr
        · exact Or.inl (inner_lt_of_row_lt ha hr)
        · exact absurd (Cell.ext hg ha hr) hne
        · exact Or.inr (inner_lt_of_row_lt ha.symm hr)
      · exact Or.inr (inner_lt_of_area_lt he ha)
    unfold off
    rw [hg]
    omega
  · exact Or.inr (off_lt_of_group_lt he hc hg)

end Placement
