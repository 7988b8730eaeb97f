import Mathlib

/-!
# Lists in the order of last use

Every key carries the moment of its last use (`stamp`). A list is `Ordered`
when it runs from the most to the least recently used key, as a cache wants
it for picking a victim. Taking keys out keeps the order, and so does moving
the key that is used right now to the front (`toFront`); using a key without
moving it breaks the order unless the key is in front already.
-/

namespace Recency

variable {κ : Type} {stamp : κ → Nat} {now : Nat} {l : List κ} {k : κ}

/-- From the most to the least recently used. -/
def Ordered (stamp : κ → Nat) (l : List κ) : Prop := l.Pairwise fun a b => stamp b < stamp a

/-- The list with `k` in front. -/
def toFront [DecidableEq κ] (k : κ) (l : List κ) : List κ := k :: l.filter (· ≠ k)

theorem Ordered.sublist {l' : List κ} (h : Ordered stamp l) (hl : l'.Sublist l) :
    Ordered stamp l' := List.Pairwise.sublist hl h

theorem Ordered.congr {stamp' : κ → Nat} (h : Ordered stamp l)
    (heq : ∀ a ∈ l, stamp' a = stamp a) : Ordered stamp' l := by
  refine List.Pairwise.imp_of_mem (fun {a b} ha hb hab => ?_) h
  rw [heq a ha, heq b hb]
  exact hab

theorem Ordered.nodup (h : Ordered stamp l) : l.Nodup :=
  h.imp fun hlt heq => absurd (congrArg stamp heq) hlt.ne'

/-- No two keys were used at the same moment. -/
theorem Ordered.stamp_inj (h : Ordered stamp l) {a b : κ} (ha : a ∈ l) (hb : b ∈ l)
    (heq : stamp a = stamp b) : a = b := by
  have hdistinct : (l.map stamp).Nodup := List.pairwise_map.mpr (h.imp fun hlt => hlt.ne')
  exact List.inj_on_of_nodup_map hdistinct ha hb heq

/-- The back of an ordered list is its oldest key. -/
theorem Ordered.back_oldest (h : Ordered stamp l) (hk : l.getLast? = some k) {a : κ}
    (ha : a ∈ l) : stamp k ≤ stamp a := by
  obtain ⟨front, rfl⟩ := List.getLast?_eq_some_iff.mp hk
  rcases List.mem_append.mp ha with ha | ha
  · exact ((List.pairwise_append.mp h).2.2 a ha k (by simp)).le
  · rw [List.mem_singleton.mp ha]

variable [DecidableEq κ]

/-- A use of a key that is not in the list. -/
theorem Ordered.use_other (h : Ordered stamp l) (hk : k ∉ l) :
    Ordered (Function.update stamp k now) l :=
  h.congr fun _ ha => Function.update_of_ne (ne_of_mem_of_not_mem ha hk) _ _

/-- A use that moves the key to the front. -/
theorem Ordered.use_toFront (h : Ordered stamp l) (hold : ∀ a, stamp a < now) :
    Ordered (Function.update stamp k now) (toFront k l) := by
  have hrest : k ∉ l.filter (· ≠ k) := by simp
  refine List.pairwise_cons.mpr ⟨fun a ha => ?_, ?_⟩
  · rw [Function.update_self, Function.update_of_ne (ne_of_mem_of_not_mem ha hrest)]
    exact hold a
  · exact (h.sublist List.filter_sublist).use_other hrest

theorem toFront_of_notMem (hk : k ∉ l) : toFront k l = k :: l := by
  have hall : l.filter (· ≠ k) = l := by
    refine List.filter_eq_self.mpr fun a ha => ?_
    simpa using ne_of_mem_of_not_mem ha hk
  rw [toFront, hall]

theorem toFront_of_head (hnd : l.Nodup) (hk : l.head? = some k) : toFront k l = l := by
  cases l with
  | nil => cases hk
  | cons a l =>
      obtain rfl : a = k := by simpa using hk
      rw [toFront, List.filter_cons_of_neg (by simp)]
      exact toFront_of_notMem (List.nodup_cons.mp hnd).1

/-- A use that leaves the key behind another one. -/
theorem not_ordered_of_use (hk : k ∈ l) (hhead : l.head? ≠ some k) (hold : ∀ a, stamp a < now) :
    ¬ Ordered (Function.update stamp k now) l := by
  intro h
  cases l with
  | nil => cases hk
  | cons a l =>
      have hak : a ≠ k := by simpa using hhead
      have hkl : k ∈ l := by simpa [hak.symm] using hk
      have hlt := List.rel_of_pairwise_cons h hkl
      rw [Function.update_self, Function.update_of_ne hak] at hlt
      exact absurd (hold a) (by omega)

end Recency
