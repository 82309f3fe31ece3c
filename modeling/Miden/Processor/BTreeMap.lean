import Mathlib.Data.List.Basic
import Mathlib.Algebra.Order.Ring.Nat

/-!
# `BTreeMap<u64, V>` as a sorted association list

The memory chiplet keeps one trace per address in a `BTreeMap`. It uses `get`, `entry`
(a lookup whose value is written back: `insert`), `iter`, `range` and `len`. The map is
its entries in ascending key order, the order `iter` and `range` visit them in; the
structure carries that order as a field.
-/

namespace Miden

/-- `BTreeMap<u64, V>`: the entries in ascending key order. -/
structure BTreeMap (V : Type) where
  entries : List (Nat × V)
  sorted : entries.Pairwise fun a b => a.1 < b.1

namespace BTreeMap
variable {V : Type}

/-- `BTreeMap::new`. -/
def empty : BTreeMap V := ⟨[], .nil⟩

/-- `BTreeMap::get`. -/
def get (m : BTreeMap V) (k : Nat) : Option V := m.entries.lookup k

/-- Insertion into a sorted list: the entry of key `k` is replaced, or added in order. -/
def insertEntry (k : Nat) (v : V) : List (Nat × V) → List (Nat × V)
  | [] => [(k, v)]
  | e :: es => if k < e.1 then (k, v) :: e :: es else if k = e.1 then (k, v) :: es
      else e :: insertEntry k v es

theorem lookup_cons_eq (a k : Nat) (b : V) (es : List (Nat × V)) :
    ((a, b) :: es).lookup k = if k = a then some b else es.lookup k := by
  by_cases h : k = a
  · subst h; simp
  · rw [List.lookup_cons, show (k == a) = false by simpa using h, if_neg h]

theorem lookup_eq_none_of_lt {k : Nat} {es : List (Nat × V)} (h : ∀ e ∈ es, k < e.1) :
    es.lookup k = none := by
  induction es with
  | nil => rfl
  | cons x xs ih =>
    obtain ⟨a, b⟩ := x
    have ha := h _ (List.mem_cons_self _ _)
    rw [lookup_cons_eq, if_neg (by simp at ha; omega), ih fun e he => h e (List.mem_cons_of_mem _ he)]

theorem mem_insertEntry_fst {k : Nat} {v : V} {es : List (Nat × V)} {e : Nat × V}
    (h : e ∈ insertEntry k v es) : e.1 = k ∨ e ∈ es := by
  induction es with
  | nil => simp_all [insertEntry]
  | cons x xs ih =>
    simp only [insertEntry] at h
    split_ifs at h
    · rcases List.mem_cons.1 h with rfl | h
      · exact .inl rfl
      · exact .inr h
    · rcases List.mem_cons.1 h with rfl | h
      · exact .inl rfl
      · exact .inr (List.mem_cons_of_mem _ h)
    · rcases List.mem_cons.1 h with rfl | h
      · exact .inr (List.mem_cons_self _ _)
      · exact (ih h).imp_right (List.mem_cons_of_mem _)

theorem insertEntry_sorted (k : Nat) (v : V) (es : List (Nat × V))
    (h : es.Pairwise fun a b => a.1 < b.1) :
    (insertEntry k v es).Pairwise fun a b => a.1 < b.1 := by
  induction es with
  | nil => simp [insertEntry]
  | cons x xs ih =>
    rw [List.pairwise_cons] at h
    simp only [insertEntry]
    split_ifs with hlt heq
    · exact .cons (fun b hb => by
        rcases List.mem_cons.1 hb with rfl | hb
        · exact hlt
        · exact hlt.trans (h.1 b hb)) (.cons h.1 h.2)
    · exact .cons (fun b hb => heq ▸ h.1 b hb) h.2
    · refine .cons (fun b hb => ?_) (ih h.2)
      rcases mem_insertEntry_fst hb with hb | hb
      · omega
      · exact h.1 b hb

/-- `BTreeMap::insert`. -/
def insert (m : BTreeMap V) (k : Nat) (v : V) : BTreeMap V :=
  ⟨insertEntry k v m.entries, insertEntry_sorted k v m.entries m.sorted⟩

/-- `BTreeMap::range(lo..=hi)`: it panics when `lo > hi`, once the map has a root node,
which here is once it has held an entry. -/
def range (m : BTreeMap V) (lo hi : Nat) : Option (List (Nat × V)) :=
  if m.entries.isEmpty = false ∧ hi < lo then none
  else some (m.entries.filter fun e => lo ≤ e.1 ∧ e.1 ≤ hi)

theorem lookup_insertEntry (k k' : Nat) (v : V) (es : List (Nat × V)) :
    (insertEntry k v es).lookup k' = if k' = k then some v else es.lookup k' := by
  induction es with
  | nil => simp [insertEntry, lookup_cons_eq]
  | cons x xs ih =>
    obtain ⟨a, b⟩ := x
    simp only [insertEntry]
    split_ifs with h1 h2 h3 h4 h5 <;> simp only [lookup_cons_eq, ih] <;> split_ifs <;> simp_all

@[simp] theorem get_insert (m : BTreeMap V) (k k' : Nat) (v : V) :
    (m.insert k v).get k' = if k' = k then some v else m.get k' :=
  lookup_insertEntry k k' v m.entries

@[simp] theorem get_empty (k : Nat) : (empty : BTreeMap V).get k = none := rfl

theorem mem_entries_iff (m : BTreeMap V) {k : Nat} {v : V} : (k, v) ∈ m.entries ↔ m.get k = some v := by
  obtain ⟨es, hs⟩ := m
  simp only [get]
  induction es with
  | nil => simp
  | cons x xs ih =>
    obtain ⟨a, b⟩ := x
    rw [List.pairwise_cons] at hs
    by_cases hk : k = a
    · subst hk
      have hnot : (k, v) ∉ xs := fun hw => Nat.lt_irrefl k (hs.1 _ hw)
      simp [hnot, eq_comm]
    · simp [lookup_cons_eq, hk, ih hs.2]

theorem sum_insertEntry (f : V → Nat) (k : Nat) (v : V) (es : List (Nat × V))
    (hs : es.Pairwise fun a b => a.1 < b.1) :
    ((insertEntry k v es).map fun e => f e.2).sum + ((es.lookup k).map f).getD 0 =
      (es.map fun e => f e.2).sum + f v := by
  induction es with
  | nil => simp [insertEntry]
  | cons x xs ih =>
    obtain ⟨a, b⟩ := x
    rw [List.pairwise_cons] at hs
    simp only [insertEntry]
    split_ifs with h1 h2
    · have hnone : xs.lookup k = none := lookup_eq_none_of_lt fun e he => h1.trans (hs.1 e he)
      simp [lookup_cons_eq, show k ≠ a by omega, hnone]; omega
    · subst h2; simp; omega
    · have := ih hs.2
      simp only [List.map_cons, List.sum_cons, lookup_cons_eq, if_neg h2]
      omega

theorem range_of_reversed {m : BTreeMap V} {lo hi : Nat} (h : m.entries ≠ [] ∧ hi < lo) :
    m.range lo hi = none := by
  rw [range, if_pos ⟨by simpa using h.1, h.2⟩]

theorem range_of_not_reversed {m : BTreeMap V} {lo hi : Nat} (h : ¬(m.entries ≠ [] ∧ hi < lo)) :
    m.range lo hi = some (m.entries.filter fun e => lo ≤ e.1 ∧ e.1 ≤ hi) := by
  rw [range, if_neg fun h' => h ⟨by simpa using h'.1, h'.2⟩]

section
variable {W : Type} (m : BTreeMap V) (g : V → Option W)

theorem mem_filterMap_range (lo hi a : Nat) (w : W) :
    (a, w) ∈ (m.entries.filter fun e => lo ≤ e.1 ∧ e.1 ≤ hi).filterMap
        (fun e => (g e.2).map (e.1, ·)) ↔
      lo ≤ a ∧ a ≤ hi ∧ (m.get a).bind g = some w := by
  simp only [List.mem_filterMap, List.mem_filter, Option.map_eq_some', Prod.mk.injEq,
    decide_eq_true_eq]
  constructor
  · rintro ⟨e, ⟨he, hlo, hhi⟩, w', hv, rfl, rfl⟩
    rw [(mem_entries_iff m).1 he, Option.some_bind]
    exact ⟨hlo, hhi, hv⟩
  · rintro ⟨hlo, hhi, hv⟩
    cases hget : m.get a with
    | none => simp [hget] at hv
    | some v =>
      rw [hget, Option.some_bind] at hv
      exact ⟨(a, v), ⟨(mem_entries_iff m).2 hget, hlo, hhi⟩, w, hv, rfl, rfl⟩

theorem pairwise_filterMap_range (p : Nat × V → Bool) :
    (((m.entries.filter p).filterMap fun e => (g e.2).map (e.1, ·)).map Prod.fst).Pairwise
      (· < ·) := by
  refine List.pairwise_map.2 (List.pairwise_filterMap.2 ((m.sorted.filter p).imp ?_))
  intro e e' hlt b hb b' hb'
  obtain ⟨_, _, rfl⟩ := Option.map_eq_some'.1 hb
  obtain ⟨_, _, rfl⟩ := Option.map_eq_some'.1 hb'
  exact hlt

end

end BTreeMap

end Miden
