import Mathlib

/-!
# Maps whose entries can run out

A map from keys to items, each with a value and possibly a deadline. An item
whose deadline has come is as good as absent: `live now` is the map that is
left at `now`.

An implementation may keep dead items around for as long as it likes. Two
maps that agree on what is live agree from then on (`live_congr`), and
writing one key commutes with taking the live part (`live_update`); with
these two rules a lazily cleaned map is compared with a plain one.

`Tidied` compares two implementations that differ in which dead items they
still hold. `Reread` compares a map with one that was written out and read back
while the clock went on.
-/

namespace TimedMap

/-- A value, and when it runs out. -/
structure Item (ν : Type) where
  value : ν
  deadline : Option Int

variable {κ ν : Type}

/-- The deadline has not come yet. -/
def Item.alive (now : Int) (it : Item ν) : Bool := it.deadline.all fun d => decide (now < d)

theorem Item.alive_iff {now : Int} {it : Item ν} :
    it.alive now = true ↔ ∀ d, it.deadline = some d → now < d := by
  cases h : it.deadline with
  | none => simp [alive, h]
  | some d => simp [alive, h]

theorem Item.alive_of_le {a b : Int} (hab : a ≤ b) {it : Item ν} (h : it.alive b = true) :
    it.alive a = true := by
  rw [alive_iff] at h ⊢
  intro d hd
  exact lt_of_le_of_lt hab (h d hd)

/-- What is left of a map at `now`. -/
def live (now : Int) (m : κ → Option (Item ν)) : κ → Option (Item ν) :=
  fun k => (m k).filter (Item.alive now)

theorem live_eq_some {now : Int} {m : κ → Option (Item ν)} {k : κ} {it : Item ν} :
    live now m k = some it ↔ m k = some it ∧ it.alive now = true := by
  rw [live, Option.filter_eq_some_iff]

/-- What is dead stays dead. -/
theorem live_live {a b : Int} (hab : a ≤ b) (m : κ → Option (Item ν)) :
    live b (live a m) = live b m := by
  funext k
  refine Option.ext fun it => ?_
  simp only [live_eq_some]
  constructor
  · rintro ⟨⟨hm, -⟩, hb⟩
    exact ⟨hm, hb⟩
  · rintro ⟨hm, hb⟩
    exact ⟨⟨hm, Item.alive_of_le hab hb⟩, hb⟩

theorem live_congr {a b : Int} (hab : a ≤ b) {m m' : κ → Option (Item ν)}
    (h : live a m = live a m') : live b m = live b m' := by
  rw [← live_live hab m, h, live_live hab]

theorem live_update [DecidableEq κ] (now : Int) (m : κ → Option (Item ν)) (k : κ)
    (o : Option (Item ν)) :
    live now (Function.update m k o) =
      Function.update (live now m) k (o.filter (Item.alive now)) := by
  funext k'
  by_cases hk : k' = k
  · subst hk
    simp [live]
  · simp [live, Function.update_of_ne hk]

theorem live_none_of_le {a b : Int} (hab : a ≤ b) {m : κ → Option (Item ν)} {k : κ}
    (h : live a m k = none) : live b m k = none := by
  rw [← live_live hab, live, h]
  rfl

/-! ## Maps that differ in dead items -/

/-- `m'` is `m` without some of the items that are dead at `now`. -/
def Tidied (now : Int) (m m' : κ → Option (Item ν)) : Prop :=
  ∀ k, m' k = m k ∨ (m' k = none ∧ live now m k = none)

namespace Tidied

variable {a b now : Int} {m m' : κ → Option (Item ν)} {k : κ}

theorem refl (now : Int) (m : κ → Option (Item ν)) : Tidied now m m := fun _ => Or.inl rfl

theorem later (h : Tidied a m m') (hab : a ≤ b) : Tidied b m m' := fun k =>
  (h k).imp_right fun hk => ⟨hk.1, live_none_of_le hab hk.2⟩

/-- The difference does not show from then on. -/
theorem live_eq (h : Tidied a m m') (hab : a ≤ b) : live b m' = live b m := by
  funext k
  rcases h.later hab k with hk | ⟨hnone, hdead⟩
  · rw [live, live, hk]
  · rw [hdead, live, hnone]
    rfl

theorem eq_of_live (h : Tidied now m m') (hk : live now m k ≠ none) : m' k = m k :=
  (h k).resolve_right fun hdead => hk hdead.2

theorem subset (h : Tidied now m m') (hk : m' k ≠ none) : m k ≠ none := by
  rcases h k with heq | ⟨hnone, -⟩
  · rwa [← heq]
  · exact absurd hnone hk

/-- Dropping in two steps. -/
theorem trans {m'' : κ → Option (Item ν)} (h : Tidied now m m') (h' : Tidied now m' m'') :
    Tidied now m m'' := by
  intro k
  rcases h' k with heq | ⟨hnone, hdead⟩
  · rw [heq]
    exact h k
  · refine Or.inr ⟨hnone, ?_⟩
    rwa [h.live_eq le_rfl] at hdead

theorem update [DecidableEq κ] (h : Tidied now m m') (k : κ) (o : Option (Item ν)) :
    Tidied now (Function.update m k o) (Function.update m' k o) := by
  intro k'
  by_cases hk : k' = k
  · subst hk
    simp
  · simpa [live, Function.update_of_ne hk] using h k'

/-- Dropping one item that is dead. -/
theorem forget [DecidableEq κ] (hdead : TimedMap.live now m k = none) :
    Tidied now m (Function.update m k none) := by
  intro k'
  by_cases hk : k' = k
  · subst hk
    exact Or.inr ⟨Function.update_self .., hdead⟩
  · exact Or.inl (Function.update_of_ne hk ..)

/-- Dropping everything that is dead. -/
theorem live (h : Tidied now m m') : Tidied now m (TimedMap.live now m') := by
  intro k
  rw [h.live_eq le_rfl]
  cases hl : TimedMap.live now m k with
  | none => exact Or.inr ⟨rfl, rfl⟩
  | some it => exact Or.inl (live_eq_some.mp hl).1.symm

end Tidied

/-! ## Maps that were read back -/

/-- The item with its deadline put off. -/
def Item.postponed (delay : Int) (it : Item ν) : Item ν :=
  ⟨it.value, it.deadline.map fun d => d + delay⟩

theorem Item.postponed_zero (it : Item ν) : it.postponed 0 = it := by
  simp [postponed]

/-- `m'` is `m` read back with the clock readings `rd`. What is dead at the first
is left out. Every other item is put back at one of the readings, and has from
then on the time that it had left at the first. -/
def Reread (rd : Nat → Int) (m m' : κ → Option (Item ν)) : Prop :=
  ∀ k, match live (rd 0) m k with
    | none => m' k = none
    | some it => ∃ n, m' k = some (it.postponed (rd n - rd 0))

namespace Reread

variable {rd : Nat → Int} {m m' m₁ : κ → Option (Item ν)}

/-- Only what is live at the first reading matters. -/
theorem congr (h : Reread rd m m') (hlive : live (rd 0) m = live (rd 0) m₁) :
    Reread rd m₁ m' := by
  intro k
  rw [← hlive]
  exact h k

/-- With a clock that stands still, the live part comes back as it is. -/
theorem still (h : Reread rd m m') (hstill : ∀ n, rd n = rd 0) : m' = live (rd 0) m := by
  funext k
  have hk := h k
  cases hlive : live (rd 0) m k with
  | none =>
      rw [hlive] at hk
      exact hk
  | some it =>
      rw [hlive] at hk
      obtain ⟨n, hn⟩ := hk
      rw [hn, hstill n, sub_self, it.postponed_zero]

end Reread

end TimedMap
