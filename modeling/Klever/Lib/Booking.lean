import Mathlib

/-!
# Bookings against capacities

Amounts of an ordered commutative monoid are booked at sites, each site with a capacity. The load of
a site is the sum of what is booked there. Booking one after another, each checked on its own
against what is already used, succeeds exactly when the whole load fits (`admits_iff`); so whether a
list of bookings goes through does not depend on its order (`Admits.perm`).
-/

namespace Klever.Lib

variable {Site α : Type} [DecidableEq Site] {bookings : List (Site × α)}

section Load

variable [AddCommMonoid α]

/-- What a list of bookings puts on a site. -/
def load (bookings : List (Site × α)) (site : Site) : α :=
  ((bookings.filter fun b => b.1 = site).map Prod.snd).sum

@[simp] theorem load_nil (site : Site) : load ([] : List (Site × α)) site = 0 := rfl

theorem load_append (xs ys : List (Site × α)) (site : Site) : load (xs ++ ys) site = load xs site + load ys site := by
  simp [load]

theorem load_cons (b : Site × α) (bs : List (Site × α)) (site : Site) :
    load (b :: bs) site = (if b.1 = site then b.2 else 0) + load bs site := by
  by_cases h : b.1 = site
  · rw [load, List.filter_cons_of_pos (by simpa using h), List.map_cons, List.sum_cons, if_pos h]
    rfl
  · rw [load, List.filter_cons_of_neg (by simpa using h), if_neg h, zero_add]
    rfl

theorem load_singleton (b : Site × α) (site : Site) : load [b] site = if b.1 = site then b.2 else 0 := by
  rw [load_cons, load_nil, add_zero]

theorem load_perm {xs ys : List (Site × α)} (perm : xs.Perm ys) (site : Site) : load xs site = load ys site :=
  ((perm.filter _).map _).sum_eq

/-- A site that no booking names carries nothing. -/
theorem load_eq_zero {site : Site} (h : ∀ b ∈ bookings, b.1 ≠ site) : load bookings site = 0 := by
  rw [load, List.filter_eq_nil_iff.mpr fun b hb => by simpa using h b hb]
  rfl

end Load

section Order

variable [AddCommMonoid α] [PartialOrder α] [IsOrderedAddMonoid α]

theorem load_nonneg (nonneg : ∀ b ∈ bookings, 0 ≤ b.2) (site : Site) : 0 ≤ load bookings site := by
  induction bookings with
  | nil => exact le_refl 0
  | cons b bs ih =>
    rw [load_cons]
    refine add_nonneg ?_ (ih fun c hc => nonneg c (List.mem_cons_of_mem _ hc))
    split
    · exact nonneg b List.mem_cons_self
    · exact le_refl 0

/-- Bookings checked one after another: each must fit on top of what is used at its site. -/
def Admits (capacity : Site → α) : (Site → α) → List (Site × α) → Prop
  | _, [] => True
  | used, b :: bs =>
    used b.1 + b.2 ≤ capacity b.1 ∧ Admits capacity (Function.update used b.1 (used b.1 + b.2)) bs

/-- Checking bookings one by one is checking the whole load of every site they name. -/
theorem admits_iff {capacity : Site → α} (nonneg : ∀ b ∈ bookings, 0 ≤ b.2) (used : Site → α) :
    Admits capacity used bookings ↔ ∀ b ∈ bookings, used b.1 + load bookings b.1 ≤ capacity b.1 := by
  induction bookings generalizing used with
  | nil => simp [Admits]
  | cons b bs ih =>
    have rest : ∀ c ∈ bs, 0 ≤ c.2 := fun c hc => nonneg c (List.mem_cons_of_mem _ hc)
    -- what is used and loaded at a site is the same, whether `b` counts as used or as load
    have moved : ∀ site, Function.update used b.1 (used b.1 + b.2) site + load bs site =
        used site + load (b :: bs) site := by
      intro site
      by_cases h : site = b.1
      · subst h
        rw [Function.update_self, load_cons, if_pos rfl, add_assoc]
      · rw [Function.update_of_ne h, load_cons, if_neg (Ne.symm h), zero_add]
    simp only [Admits, ih rest, moved]
    constructor
    · rintro ⟨head, tail⟩ c hc
      rcases List.mem_cons.mp hc with rfl | hc
      · by_cases named : ∃ d ∈ bs, d.1 = c.1
        · obtain ⟨d, hd, same⟩ := named
          have := tail d hd
          rwa [same] at this
        · rw [load_cons, if_pos rfl, load_eq_zero fun d hd same => named ⟨d, hd, same⟩, add_zero]
          exact head
      · exact tail c hc
    · intro all
      refine ⟨?_, fun c hc => all c (List.mem_cons_of_mem _ hc)⟩
      have whole := all b List.mem_cons_self
      rw [load_cons, if_pos rfl, ← add_assoc] at whole
      exact le_trans (le_add_of_nonneg_right (load_nonneg rest b.1)) whole

/-- Bookings that go through in one order go through in every order. -/
theorem Admits.perm {capacity : Site → α} {xs ys : List (Site × α)} {used : Site → α}
    (h : Admits capacity used xs) (perm : xs.Perm ys) (nonneg : ∀ b ∈ xs, 0 ≤ b.2) :
    Admits capacity used ys := by
  rw [admits_iff nonneg] at h
  rw [admits_iff fun b hb => nonneg b (perm.mem_iff.mpr hb)]
  intro b hb
  rw [← load_perm perm]
  exact h b (perm.mem_iff.mpr hb)

end Order

end Klever.Lib
