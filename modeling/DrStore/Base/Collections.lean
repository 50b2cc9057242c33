import Mathlib.Data.List.Nodup
import Mathlib.Data.List.Perm.Basic
import Mathlib.Tactic.Common

/-! # Dicts, insert-if-absent and chunks

A dict is a list of items with distinct keys, in the order in which the keys were first set.
Two dicts are the same when all their lookups are. `fill` is what any number of
insert-if-absent writes do to a map: a key keeps its value, or gets the first one offered.
Chunks of a list are its slices of one length, in order. -/
namespace DrStore.Base.Collections

variable {κ ν α : Type} [DecidableEq κ]

/-! ## First entries of a list of pairs -/

/-- The value of the first pair with this key. -/
def firstOf (pairs : List (κ × ν)) (k : κ) : Option ν :=
  (pairs.find? (fun p => decide (p.1 = k))).map Prod.snd

@[simp] theorem firstOf_nil (k : κ) : firstOf ([] : List (κ × ν)) k = none := rfl

@[simp] theorem firstOf_cons (p : κ × ν) (pairs : List (κ × ν)) (k : κ) :
    firstOf (p :: pairs) k = if p.1 = k then some p.2 else firstOf pairs k := by
  unfold firstOf
  by_cases h : p.1 = k <;> simp [h]

theorem firstOf_append (xs ys : List (κ × ν)) (k : κ) :
    firstOf (xs ++ ys) k = (firstOf xs k).or (firstOf ys k) := by
  induction xs with
  | nil => simp
  | cons p xs ih =>
    by_cases h : p.1 = k <;> simp [h, ih]

theorem firstOf_mem {pairs : List (κ × ν)} {k : κ} {v : ν} (h : firstOf pairs k = some v) :
    (k, v) ∈ pairs := by
  induction pairs with
  | nil => cases h
  | cons p pairs ih =>
    by_cases hp : p.1 = k
    · rw [firstOf_cons, if_pos hp, Option.some.injEq] at h
      rw [← hp, ← h]
      exact List.mem_cons_self
    · rw [firstOf_cons, if_neg hp] at h
      exact List.mem_cons_of_mem _ (ih h)

theorem firstOf_isSome {pairs : List (κ × ν)} {k : κ} :
    (firstOf pairs k).isSome = true ↔ k ∈ pairs.map Prod.fst := by
  induction pairs with
  | nil => simp
  | cons p pairs ih =>
    by_cases hp : p.1 = k
    · simp [hp]
    · simp only [firstOf_cons, hp, if_false, ih, List.map_cons, List.mem_cons]
      exact ⟨Or.inr, fun h => h.resolve_left (Ne.symm hp)⟩

/-- Among distinct keys every pair is the first of its key. -/
theorem firstOf_eq_some {pairs : List (κ × ν)} (hd : (pairs.map Prod.fst).Nodup) {k : κ} {v : ν} :
    firstOf pairs k = some v ↔ (k, v) ∈ pairs := by
  refine ⟨firstOf_mem, ?_⟩
  induction pairs with
  | nil => intro h; cases h
  | cons p pairs ih =>
    rw [List.map_cons, List.nodup_cons] at hd
    intro h
    rcases List.mem_cons.mp h with rfl | h
    · simp
    · have hne : p.1 ≠ k := by
        rintro rfl
        exact hd.1 (List.mem_map.mpr ⟨_, h, rfl⟩)
      rw [firstOf_cons, if_neg hne]
      exact ih hd.2 h

theorem firstOf_map (f : ν → α) (pairs : List (κ × ν)) (k : κ) :
    firstOf (pairs.map fun p => (p.1, f p.2)) k = (firstOf pairs k).map f := by
  induction pairs with
  | nil => rfl
  | cons p pairs ih => by_cases h : p.1 = k <;> simp [h, ih]

/-! ## Insert if absent -/

def putAbsent (m : κ → Option ν) (k : κ) (v : ν) : κ → Option ν :=
  fun j => (m j).or (if k = j then some v else none)

theorem putAbsent_present {m : κ → Option ν} {k : κ} {w : ν} (h : m k = some w) (v : ν) :
    putAbsent m k v = m := by
  funext j
  rw [putAbsent]
  by_cases hj : k = j
  · subst hj
    simp [h]
  · simp [hj]

theorem putAbsent_self (m : κ → Option ν) (k : κ) (v : ν) :
    putAbsent m k v k = some ((m k).getD v) := by
  rw [putAbsent, if_pos rfl]
  cases m k <;> rfl

/-- Insert each pair whose key is absent at that point. -/
def fill (m : κ → Option ν) (pairs : List (κ × ν)) : κ → Option ν :=
  pairs.foldl (fun m p => putAbsent m p.1 p.2) m

theorem fill_apply (m : κ → Option ν) (pairs : List (κ × ν)) (j : κ) :
    fill m pairs j = (m j).or (firstOf pairs j) := by
  induction pairs generalizing m with
  | nil => simp [fill]
  | cons p pairs ih =>
    show fill (putAbsent m p.1 p.2) pairs j = _
    rw [ih, putAbsent, firstOf_cons, Option.or_assoc]
    by_cases h : p.1 = j <;> simp [h]

/-- A row that filling changes was absent and is among those offered. -/
theorem fill_changed {m : κ → Option ν} {pairs : List (κ × ν)} {j : κ}
    (h : fill m pairs j ≠ m j) : j ∈ pairs.map Prod.fst ∧ (fill m pairs j).isSome = true := by
  rw [fill_apply] at h ⊢
  cases hm : m j with
  | some v => simp [hm] at h
  | none =>
    cases hf : firstOf pairs j with
    | none => simp [hm, hf] at h
    | some v =>
      exact ⟨firstOf_isSome.mp (Option.isSome_iff_exists.mpr ⟨v, hf⟩), rfl⟩

theorem fill_isSome {m : κ → Option ν} {pairs : List (κ × ν)} {j : κ} :
    (fill m pairs j).isSome = true ↔ (m j).isSome = true ∨ j ∈ pairs.map Prod.fst := by
  rw [fill_apply, Option.isSome_or, Bool.or_eq_true, firstOf_isSome]

theorem fill_append (m : κ → Option ν) (xs ys : List (κ × ν)) :
    fill m (xs ++ ys) = fill (fill m xs) ys := List.foldl_append

/-- Filling with the first entries only is filling with all of them. -/
theorem fill_congr {m : κ → Option ν} {xs ys : List (κ × ν)}
    (h : ∀ k, firstOf xs k = firstOf ys k) : fill m xs = fill m ys := by
  funext k
  rw [fill_apply, fill_apply, h]

/-! ## Dicts -/

structure Dict (κ ν : Type) [DecidableEq κ] where
  items : List (κ × ν)
  nodup : (items.map Prod.fst).Nodup

namespace Dict

def empty : Dict κ ν := ⟨[], List.nodup_nil⟩

def get? (d : Dict κ ν) (k : κ) : Option ν := firstOf d.items k

def keys (d : Dict κ ν) : List κ := d.items.map Prod.fst

def values (d : Dict κ ν) : List ν := d.items.map Prod.snd

def contains (d : Dict κ ν) (k : κ) : Bool := (d.get? k).isSome

theorem get?_eq_some {d : Dict κ ν} {k : κ} {v : ν} : d.get? k = some v ↔ (k, v) ∈ d.items :=
  firstOf_eq_some d.nodup

theorem contains_iff {d : Dict κ ν} {k : κ} : d.contains k = true ↔ k ∈ d.keys := firstOf_isSome

theorem get?_eq_none {d : Dict κ ν} {k : κ} : d.get? k = none ↔ k ∉ d.keys := by
  rw [← contains_iff, contains]
  cases d.get? k <;> simp

@[simp] theorem get?_empty (k : κ) : (empty : Dict κ ν).get? k = none := rfl

theorem append_nodup {d : Dict κ ν} {k : κ} (h : d.get? k = none) (v : ν) :
    ((d.items ++ [(k, v)]).map Prod.fst).Nodup := by
  rw [List.map_append, List.nodup_append]
  refine ⟨d.nodup, by simp, ?_⟩
  intro a ha b hb heq
  simp only [List.map_cons, List.map_nil, List.mem_singleton] at hb
  exact get?_eq_none.mp h (hb ▸ heq ▸ ha)

theorem replaced_keys (items : List (κ × ν)) (k : κ) (v : ν) :
    (items.map fun p => if p.1 = k then (k, v) else p).map Prod.fst = items.map Prod.fst := by
  rw [List.map_map]
  apply List.map_congr_left
  intro p _
  by_cases h : p.1 = k <;> simp [h]

/-- `d[k] = v`: in place when the key is there, else at the end. -/
def set (d : Dict κ ν) (k : κ) (v : ν) : Dict κ ν :=
  match h : d.get? k with
  | some _ => ⟨d.items.map fun p => if p.1 = k then (k, v) else p, by
      rw [replaced_keys]; exact d.nodup⟩
  | none => ⟨d.items ++ [(k, v)], append_nodup h v⟩

/-- `d.setdefault(k, v)`, as the dict it leaves. -/
def setdefault (d : Dict κ ν) (k : κ) (v : ν) : Dict κ ν :=
  match h : d.get? k with
  | some _ => d
  | none => ⟨d.items ++ [(k, v)], append_nodup h v⟩

/-- `d.pop(k, None)`, as the dict it leaves. -/
def erase (d : Dict κ ν) (k : κ) : Dict κ ν :=
  ⟨d.items.filter (fun p => decide (p.1 ≠ k)), d.nodup.sublist (List.filter_sublist.map _)⟩

theorem firstOf_replaced (items : List (κ × ν)) (k j : κ) (v : ν) :
    firstOf (items.map fun p => if p.1 = k then (k, v) else p) j =
      if j = k then (firstOf items k).map (fun _ => v) else firstOf items j := by
  induction items with
  | nil => simp
  | cons p items ih =>
    by_cases hp : p.1 = k <;> by_cases hj : j = k
    · simp [hp, hj]
    · have hkj : k ≠ j := Ne.symm hj
      simp [hp, hj, hkj, ih]
    · subst hj
      simp [hp, ih]
    · by_cases hpj : p.1 = j <;> simp [hp, hj, hpj, ih]

theorem get?_set (d : Dict κ ν) (k j : κ) (v : ν) :
    (d.set k v).get? j = if j = k then some v else d.get? j := by
  unfold set
  split
  · rename_i w h
    have h' : firstOf d.items k = some w := h
    show firstOf _ j = _
    rw [firstOf_replaced, h']
    rfl
  · rename_i h
    have h' : firstOf d.items k = none := h
    show firstOf _ j = _
    rw [firstOf_append, firstOf_cons, firstOf_nil]
    by_cases hj : j = k
    · subst hj
      simp [h']
    · simp [hj, Ne.symm hj, get?]

theorem keys_set_absent {d : Dict κ ν} {k : κ} (h : d.get? k = none) (v : ν) :
    (d.set k v).keys = d.keys ++ [k] := by
  unfold set
  split
  · rename_i w hsome
    rw [h] at hsome
    cases hsome
  · simp [keys]

theorem get?_setdefault (d : Dict κ ν) (k j : κ) (v : ν) :
    (d.setdefault k v).get? j = putAbsent d.get? k v j := by
  unfold setdefault
  split
  · rename_i w h
    rw [putAbsent]
    by_cases hj : k = j
    · subst hj
      simp [h]
    · simp [hj]
  · show firstOf _ j = _
    rw [firstOf_append, firstOf_cons, firstOf_nil]
    rfl

/-- Offering one more pair first is `setdefault` before the rest. -/
theorem fill_setdefault (d : Dict κ ν) (k : κ) (v : ν) (pairs : List (κ × ν)) :
    fill d.get? ((k, v) :: pairs) = fill (d.setdefault k v).get? pairs := by
  have h : (d.setdefault k v).get? = putAbsent d.get? k v :=
    funext fun j => get?_setdefault d k j v
  rw [h]
  rfl

/-- Later pairs leave the key alone. -/
theorem fill_setdefault_self (d : Dict κ ν) (k : κ) (v : ν) (pairs : List (κ × ν)) :
    fill d.get? ((k, v) :: pairs) k = (d.setdefault k v).get? k := by
  rw [fill_setdefault, fill_apply, get?_setdefault, putAbsent_self]
  rfl

theorem get?_erase (d : Dict κ ν) (k j : κ) :
    (d.erase k).get? j = if j = k then none else d.get? j := by
  have key : ∀ items : List (κ × ν), firstOf (items.filter fun p => decide (p.1 ≠ k)) j =
      if j = k then none else firstOf items j := by
    intro items
    induction items with
    | nil => simp
    | cons p items ih =>
      by_cases hp : p.1 = k
      · rw [List.filter_cons_of_neg (by simp [hp]), ih, firstOf_cons]
        by_cases hj : j = k
        · simp [hj]
        · simp [hj, hp, Ne.symm hj]
      · rw [List.filter_cons_of_pos (by simp [hp]), firstOf_cons, ih, firstOf_cons]
        by_cases hj : j = k
        · subst hj
          simp [hp]
        · simp [hj]
  exact key d.items

theorem get?_set_absent {d : Dict κ ν} {k : κ} (h : d.get? k = none) (v : ν) :
    (d.set k v).get? = putAbsent d.get? k v := by
  funext j
  rw [get?_set, putAbsent]
  by_cases hj : j = k
  · subst hj
    simp [h]
  · simp [hj, Ne.symm hj]

/-- A dict built by `setdefault` holds the first value of each key. -/
theorem get?_foldl_setdefault (d : Dict κ ν) (pairs : List (κ × ν)) :
    (pairs.foldl (fun d p => d.setdefault p.1 p.2) d).get? = fill d.get? pairs := by
  induction pairs generalizing d with
  | nil => rfl
  | cons p pairs ih =>
    rw [List.foldl_cons, ih, ← fill_setdefault]

/-- A dict updated with rows of a map agrees with the map on the rows' keys. -/
theorem get?_foldl_set {m : κ → Option ν} (rows : List (κ × ν)) (d : Dict κ ν)
    (h : ∀ p ∈ rows, m p.1 = some p.2) (j : κ) :
    (rows.foldl (fun d p => d.set p.1 p.2) d).get? j =
      if j ∈ rows.map Prod.fst then m j else d.get? j := by
  induction rows generalizing d with
  | nil => simp
  | cons p rows ih =>
    show (rows.foldl _ (d.set p.1 p.2)).get? j = _
    rw [ih (d.set p.1 p.2) (fun q hq => h q (List.mem_cons_of_mem _ hq)), get?_set]
    have hp := h p List.mem_cons_self
    by_cases hj : j = p.1
    · subst hj
      simp [hp]
    · simp only [hj, if_false, List.map_cons, List.mem_cons, false_or]

theorem isSome_foldl_set (rows : List (κ × ν)) (d : Dict κ ν) (j : κ) :
    ((rows.foldl (fun d p => d.set p.1 p.2) d).get? j).isSome = true ↔
      j ∈ rows.map Prod.fst ∨ (d.get? j).isSome = true := by
  induction rows generalizing d with
  | nil => simp
  | cons p rows ih =>
    rw [List.foldl_cons, ih, get?_set]
    by_cases h : j = p.1 <;> simp [h]

/-- `{k: f(k) for k in keys}`, less the keys that have no value. -/
def collect (ks : List κ) (f : κ → Option ν) : Dict κ ν :=
  ks.foldl (fun d k => match f k with
    | some v => d.set k v
    | none => d) empty

theorem get?_collect (ks : List κ) (f : κ → Option ν) (j : κ) :
    (collect ks f).get? j = if j ∈ ks then f j else none := by
  have key : ∀ d : Dict κ ν, (∀ v, d.get? j = some v → f j = some v) →
      (ks.foldl (fun d k => match f k with
        | some v => d.set k v
        | none => d) d).get? j = if j ∈ ks then f j else d.get? j := by
    induction ks with
    | nil => simp
    | cons k ks ih =>
      intro d hd
      rw [List.foldl_cons]
      cases hk : f k with
      | none =>
        rw [ih d hd]
        by_cases hj : j = k
        · subst hj
          have hnone : d.get? j = none := by
            cases hg : d.get? j with
            | none => rfl
            | some v => rw [hd v hg] at hk; cases hk
          simp [hk, hnone]
        · simp [hj]
      | some v =>
        rw [ih (d.set k v)]
        · rw [get?_set]
          by_cases hj : j = k
          · subst hj
            simp [hk]
          · simp [hj]
        · intro w hw
          rw [get?_set] at hw
          by_cases hj : j = k
          · rw [if_pos hj] at hw
            rw [hj, hk, hw]
          · rw [if_neg hj] at hw
            exact hd w hw
  exact key empty (by simp)

end Dict

/-! ## Lists that grow at the end, or change at one index -/

theorem getElem?_concat_cases {l : List α} {a b : α} {k : Nat} (h : (l ++ [a])[k]? = some b) :
    l[k]? = some b ∨ k = l.length ∧ b = a := by
  obtain hlt | hge := Nat.lt_or_ge k l.length
  · rw [List.getElem?_append_left hlt] at h
    exact .inl h
  · rw [List.getElem?_append_right hge] at h
    obtain ⟨hk, hb⟩ := List.getElem?_eq_some_iff.mp h
    simp only [List.length_singleton, Nat.lt_one_iff] at hk
    simp only [hk, List.getElem_singleton] at hb
    exact .inr ⟨by omega, hb.symm⟩

theorem getElem?_set_cases {l : List α} {a b : α} {j k : Nat} (h : (l.set k a)[j]? = some b) :
    j = k ∧ b = a ∨ j ≠ k ∧ l[j]? = some b := by
  by_cases hjk : j = k
  · subst hjk
    rw [List.getElem?_set_self (by simpa using (List.getElem?_eq_some_iff.mp h).1)] at h
    exact .inl ⟨rfl, (Option.some.inj h).symm⟩
  · rw [List.getElem?_set_ne (Ne.symm hjk)] at h
    exact .inr ⟨hjk, h⟩

/-! ## Chunks -/

/-- The slices `xs[0:n]`, `xs[n:2n]`, and so on. -/
def chunks (n : Nat) (xs : List α) : List (List α) :=
  (List.range ((xs.length + n - 1) / n)).map fun i => (xs.drop (i * n)).take n

theorem flatten_slices (n : Nat) (xs : List α) : ∀ m : Nat,
    ((List.range m).map fun i => (xs.drop (i * n)).take n).flatten = xs.take (m * n) := by
  intro m
  induction m with
  | zero => simp
  | succ m ih =>
    rw [List.range_succ, List.map_append, List.flatten_append, ih, Nat.succ_mul, List.take_add]
    simp

theorem chunks_flatten {n : Nat} (hn : 0 < n) (xs : List α) : (chunks n xs).flatten = xs := by
  rw [chunks, flatten_slices, List.take_of_length_le]
  have h := Nat.div_add_mod (xs.length + n - 1) n
  have hlt := Nat.mod_lt (xs.length + n - 1) hn
  rw [Nat.mul_comm] at h
  omega

theorem chunks_singleton {n : Nat} {xs : List α} (hne : xs ≠ []) (hle : xs.length ≤ n) :
    chunks n xs = [xs] := by
  have hpos : 0 < xs.length := List.length_pos_iff.mpr hne
  have hone : (xs.length + n - 1) / n = 1 := by
    rw [Nat.div_eq_iff (by omega)]
    omega
  simp [chunks, hone, List.take_of_length_le hle]

theorem mem_chunks {n : Nat} (hn : 0 < n) {xs chunk : List α} (hchunk : chunk ∈ chunks n xs) :
    chunk ≠ [] ∧ chunk.length ≤ n ∧ chunk.Sublist xs := by
  obtain ⟨i, hi, rfl⟩ := List.mem_map.mp hchunk
  have hstart : i * n < xs.length := by
    have h := (Nat.le_div_iff_mul_le hn).mp (List.mem_range.mp hi)
    rw [Nat.succ_mul] at h
    omega
  refine ⟨?_, List.length_take_le .., (List.take_sublist ..).trans (List.drop_sublist ..)⟩
  intro hnil
  have hlength := congrArg List.length hnil
  rw [List.length_take, List.length_drop, List.length_nil] at hlength
  omega

/-! ## Lists without repetitions -/

omit [DecidableEq κ] in
theorem nodup_eraseDups [BEq κ] [LawfulBEq κ] (l : List κ) : l.eraseDups.Nodup := by
  induction hn : l.length using Nat.strongRecOn generalizing l with
  | ind n ih =>
    cases l with
    | nil => exact List.nodup_nil
    | cons a l =>
      have hshorter : (l.filter fun b => !b == a).length < n := by
        rw [← hn, List.length_cons]
        exact Nat.lt_succ_of_le (List.length_filter_le _ _)
      rw [List.eraseDups_cons, List.nodup_cons]
      refine ⟨?_, ih _ hshorter _ rfl⟩
      rw [List.mem_eraseDups]
      simp

@[simp] theorem eraseDups_eraseDups (l : List κ) : l.eraseDups.eraseDups = l.eraseDups := by
  induction hn : l.length using Nat.strongRecOn generalizing l with
  | ind n ih =>
    cases l with
    | nil => rfl
    | cons a l =>
      have hshorter : (l.filter fun b => !b == a).length < n := by
        rw [← hn, List.length_cons]
        exact Nat.lt_succ_of_le (List.length_filter_le _ _)
      have hkeep : ((l.filter fun b => !b == a).eraseDups.filter fun b => !b == a) =
          (l.filter fun b => !b == a).eraseDups := by
        refine List.filter_eq_self.mpr ?_
        intro b hb
        exact (List.mem_filter.mp (List.mem_eraseDups.mp hb)).2
      rw [List.eraseDups_cons, List.eraseDups_cons, hkeep, ih _ hshorter _ rfl]

/-! ## Taking away one by one -/

/-- Take each of the expected items away once: those that are missing, and what is left. -/
def takeEach [DecidableEq α] : List α → List α → List α × List α
  | [], remaining => ([], remaining)
  | e :: expected, remaining =>
    if e ∈ remaining then takeEach expected (remaining.erase e)
    else
      let (missing, rest) := takeEach expected remaining
      (e :: missing, rest)

/-- Both counts are those of the multiset differences. -/
theorem count_takeEach [DecidableEq α] (expected actual : List α) (x : α) :
    (takeEach expected actual).1.count x = expected.count x - actual.count x ∧
      (takeEach expected actual).2.count x = actual.count x - expected.count x := by
  induction expected generalizing actual with
  | nil => simp [takeEach]
  | cons e expected ih =>
    rw [takeEach]
    split
    · rename_i hmem
      obtain ⟨hmissing, hrest⟩ := ih (actual.erase e)
      have hpos : 0 < actual.count e := List.count_pos_iff.mpr hmem
      rw [hmissing, hrest]
      by_cases hx : e = x
      · subst hx
        rw [List.count_erase_self, List.count_cons_self]
        omega
      · rw [List.count_erase_of_ne (Ne.symm hx), List.count_cons_of_ne hx]
        exact ⟨rfl, rfl⟩
    · rename_i hmem
      obtain ⟨hmissing, hrest⟩ := ih actual
      have hzero : actual.count e = 0 := List.count_eq_zero.mpr hmem
      show (e :: (takeEach expected actual).1).count x = _ ∧ _
      by_cases hx : e = x
      · subst hx
        rw [List.count_cons_self, List.count_cons_self, hmissing]
        refine ⟨by omega, hrest.trans ?_⟩
        omega
      · rw [List.count_cons_of_ne hx, List.count_cons_of_ne hx]
        exact ⟨hmissing, hrest⟩

/-- Nothing is missing and nothing left of two lists with the same items. -/
theorem takeEach_nil [DecidableEq α] {expected actual : List α} :
    ((takeEach expected actual).1 = [] ∧ (takeEach expected actual).2 = []) ↔
      expected.Perm actual := by
  rw [List.perm_iff_count]
  constructor
  · intro h x
    obtain ⟨hmissing, hrest⟩ := count_takeEach expected actual x
    rw [h.1, List.count_nil] at hmissing
    rw [h.2, List.count_nil] at hrest
    omega
  · intro h
    have hnone : ∀ l : List α, (∀ x, l.count x = 0) → l = [] := by
      intro l hl
      cases l with
      | nil => rfl
      | cons a l => simpa using hl a
    refine ⟨hnone _ fun x => ?_, hnone _ fun x => ?_⟩
    · rw [(count_takeEach expected actual x).1, h x, Nat.sub_self]
    · rw [(count_takeEach expected actual x).2, h x, Nat.sub_self]

end DrStore.Base.Collections
