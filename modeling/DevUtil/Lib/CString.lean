import Mathlib.Algebra.Order.Ring.Nat
import Mathlib.Data.List.Basic

/-!
# NUL-terminated strings in a bounded memory

A pointer is the list of the cells from where it points to the end of the memory.
Reading at the end of that list is a read outside the memory, `none`.

`packed` lays strings out one after the other, each with its NUL; `search` is the
loop that walks over them.  It needs a NUL after the last string to stop:

    search nul item (packed nul items ++ List.replicate n nul) =
      if item ∈ items then some true else if n = 0 then none else some false     (search_packed)

`strings` walks over all of them.  In a memory that is cut off it comes to the end only if the
NUL after the last string is still there.                                         (strings_take)
-/

namespace Lib.CString

variable {α : Type}

/-! ## Strings laid out one after the other -/

def packed (nul : α) (items : List (List α)) : List α := items.flatMap fun s => s ++ [nul]

theorem packed_cons (nul : α) (s : List α) (items : List (List α)) :
    packed nul (s :: items) = s ++ nul :: packed nul items := by
  simp [packed]

theorem packed_concat (nul : α) (items : List (List α)) (s : List α) :
    packed nul (items ++ [s]) = packed nul items ++ s ++ [nul] := by
  simp [packed]

theorem length_packed (nul : α) (items : List (List α)) :
    (packed nul items).length = (items.map fun s => s.length + 1).sum := by
  induction items with
  | nil => rfl
  | cons s items ih => simp [packed_cons, ih]; omega

/-! ## Library functions -/

/-- `strncpy(ptr + at, s, strlen(s))`: the characters of `s` without the NUL. -/
def store (mem : List α) (at' : Nat) (s : List α) : Option (List α) :=
  if at' + s.length ≤ mem.length then some (mem.take at' ++ s ++ mem.drop (at' + s.length))
  else none

theorem length_store {mem mem' s : List α} {at' : Nat} (h : store mem at' s = some mem') :
    mem'.length = mem.length := by
  unfold store at h
  split at h
  · cases h
    simp
    omega
  · cases h

/-- A string is stored where the free cells begin, and leaves at least one free cell behind. -/
theorem store_packed (nul : α) (items : List (List α)) (s : List α) {n : Nat} (hn : s.length < n) :
    store (packed nul items ++ List.replicate n nul) (packed nul items).length s =
      some (packed nul (items ++ [s]) ++ List.replicate (n - s.length - 1) nul) := by
  have hroom : (packed nul items).length + s.length ≤
      (packed nul items ++ List.replicate n nul).length := by
    rw [List.length_append, List.length_replicate]
    omega
  have hdrop : (packed nul items ++ List.replicate n nul).drop
    ((packed nul items).length + s.length) =
      nul :: List.replicate (n - s.length - 1) nul := by
    rw [List.drop_append, List.drop_eq_nil_of_le (by omega), List.nil_append, List.drop_replicate,
      ← List.replicate_succ]
    congr 1
    omega
  rw [store, if_pos hroom, List.take_left, hdrop, packed_concat]
  simp

variable [DecidableEq α]

/-- `strlen` -/
def strlen (nul : α) : List α → Option Nat
  | [] => none
  | c :: ptr => if c = nul then some 0 else (strlen nul ptr).map (· + 1)

/-- `!strcmp`: whether the string at the pointer is `s`. -/
def streq (nul : α) : List α → List α → Option Bool
  | [], _ => none
  | c :: _, [] => some (decide (c = nul))
  | c :: ptr, d :: s => if c = d then streq nul ptr s else some false

/-- Walks over the strings from the pointer until one is `item` or is empty. -/
def search (nul : α) (item : List α) (ptr : List α) : Option Bool :=
  match ptr with
  | [] => none
  | c :: rest =>
    if c = nul then some false
    else
      match streq nul ptr item with
      | none => none
      | some true => some true
      | some false =>
        match strlen nul ptr with
        | none => none
        | some n => search nul item (rest.drop n)
termination_by ptr.length
decreasing_by
  show (rest.drop n).length < rest.length + 1
  rw [List.length_drop]
  omega

/-- The strings from the pointer on, until one is empty. -/
def strings (nul : α) (ptr : List α) : Option (List (List α)) :=
  match ptr with
  | [] => none
  | c :: rest =>
    if c = nul then some []
    else
      match strlen nul (c :: rest) with
      | none => none
      | some n => (strings nul (rest.drop n)).map ((c :: rest).take n :: ·)
termination_by ptr.length
decreasing_by
  show (rest.drop n).length < rest.length + 1
  rw [List.length_drop]
  omega

/-! ## Reading what is laid out -/

variable {nul : α}

theorem strlen_append {s : List α} (hs : nul ∉ s) (rest : List α) :
    strlen nul (s ++ nul :: rest) = some s.length := by
  induction s with
  | nil => simp [strlen]
  | cons c s ih =>
    have hc : c ≠ nul := fun h => hs (h ▸ List.mem_cons_self)
    have ih := ih (fun h => hs (List.mem_cons_of_mem c h))
    rw [List.cons_append, strlen, if_neg hc, ih]
    rfl

theorem streq_append {s t : List α} (hs : nul ∉ s) (ht : nul ∉ t) (rest : List α) :
    streq nul (s ++ nul :: rest) t = some (decide (s = t)) := by
  induction s generalizing t with
  | nil =>
    match t with
    | [] => simp [streq]
    | d :: t =>
      have hd : nul ≠ d := fun h => ht (h ▸ List.mem_cons_self)
      simp [streq, hd]
  | cons c s ih =>
    match t with
    | [] =>
      have hc : c ≠ nul := fun h => hs (h ▸ List.mem_cons_self)
      simp [streq, hc]
    | d :: t =>
      have ih :=
        @ih t (fun h => hs (List.mem_cons_of_mem c h)) (fun h => ht (List.mem_cons_of_mem d h))
      by_cases hcd : c = d
      · subst hcd
        simp [streq, ih]
      · simp [streq, hcd]

/-- One turn of the loop, at a string. -/
theorem search_append {s item : List α} (hs : nul ∉ s) (hne : s ≠ []) (hitem : nul ∉ item)
    (rest : List α) :
    search nul item (s ++ nul :: rest) = if s = item then some true else search nul item rest := by
  match s, hne with
  | c :: s, _ =>
    have hc : c ≠ nul := fun h => hs (h ▸ List.mem_cons_self)
    have hlen : strlen nul (c :: (s ++ nul :: rest)) = some (s.length + 1) := strlen_append hs rest
    have heq := streq_append hs hitem rest
    rw [List.cons_append] at heq ⊢
    rw [search, if_neg hc, heq]
    by_cases h : c :: s = item
    · simp [h]
    · have hdrop : (s ++ nul :: rest).drop (s.length + 1) = rest := by simp
      simp only [h, decide_false, hlen, hdrop, if_false]

theorem search_nul (item rest : List α) : search nul item (nul :: rest) = some false := by
  rw [search, if_pos rfl]

theorem search_nil (item : List α) : search nul item [] = none := by
  rw [search]

/-- The whole loop. Only after a NUL that follows the last string does it answer "no". -/
theorem search_packed {items : List (List α)} {item : List α}
    (hitems : ∀ s ∈ items, nul ∉ s ∧ s ≠ []) (hitem : nul ∉ item) (n : Nat) :
    search nul item (packed nul items ++ List.replicate n nul) =
      if item ∈ items then some true else if n = 0 then none else some false := by
  induction items with
  | nil =>
    match n with
    | 0 => simp [packed, search_nil]
    | n + 1 => simp [packed, List.replicate_succ, search_nul]
  | cons s items ih =>
    obtain ⟨hnul, hne⟩ := hitems s List.mem_cons_self
    have ih := ih fun t ht => hitems t (List.mem_cons_of_mem s ht)
    rw [packed_cons, List.append_assoc, List.cons_append, search_append hnul hne hitem, ih]
    by_cases h : s = item
    · simp [h]
    · have h' : ¬item = s := fun e => h e.symm
      simp [h, h', List.mem_cons]

theorem strlen_eq_none {s : List α} (hs : nul ∉ s) : strlen nul s = none := by
  induction s with
  | nil => rfl
  | cons c s ih =>
    have hc : c ≠ nul := fun h => hs (h ▸ List.mem_cons_self)
    rw [strlen, if_neg hc, ih fun h => hs (List.mem_cons_of_mem c h)]
    rfl

/-- One turn of the loop, at a string. -/
theorem strings_append {s : List α} (hs : nul ∉ s) (hne : s ≠ []) (rest : List α) :
    strings nul (s ++ nul :: rest) = (strings nul rest).map (s :: ·) := by
  match s, hne with
  | c :: s, _ =>
    have hc : c ≠ nul := fun h => hs (h ▸ List.mem_cons_self)
    have hlen : strlen nul (c :: (s ++ nul :: rest)) = some (s.length + 1) := strlen_append hs rest
    have hdrop : (s ++ nul :: rest).drop (s.length + 1) = rest := by simp
    have htake : (c :: (s ++ nul :: rest)).take (s.length + 1) = c :: s := by simp
    rw [List.cons_append, strings, if_neg hc, hlen]
    simp only [hdrop, htake]

/-- A string without its NUL is read past the end. -/
theorem strings_unended {s : List α} (hs : nul ∉ s) : strings nul s = none := by
  match s with
  | [] => rw [strings]
  | c :: s =>
    have hc : c ≠ nul := fun h => hs (h ▸ List.mem_cons_self)
    rw [strings, if_neg hc, strlen_eq_none hs]

/-- The whole loop, in a memory that is cut off after `len` cells. -/
theorem strings_take {items : List (List α)} (hitems : ∀ s ∈ items, nul ∉ s ∧ s ≠ [])
    (n len : Nat) :
    strings nul ((packed nul items ++ List.replicate n nul).take len) =
      if (packed nul items).length < len ∧ n ≠ 0 then some items else none := by
  induction items generalizing len with
  | nil =>
    match n, len with
    | 0, len => simp [packed, strings]
    | n + 1, 0 => simp [packed, strings]
    | n + 1, len + 1 => simp [packed, strings, List.replicate_succ]
  | cons s items ih =>
    obtain ⟨hnul, hne⟩ := hitems s List.mem_cons_self
    have ih := ih fun t ht => hitems t (List.mem_cons_of_mem s ht)
    rw [packed_cons, List.append_assoc, List.cons_append, List.length_append, List.length_cons]
    by_cases hlen : s.length < len
    · obtain ⟨rest, rfl⟩ : ∃ rest, len = s.length + (rest + 1) := ⟨len - s.length - 1, by omega⟩
      rw [List.take_length_add_append, List.take_succ_cons, strings_append hnul hne, ih]
      by_cases hfits : (packed nul items).length < rest ∧ n ≠ 0
      · rw [if_pos hfits, if_pos ⟨by omega, hfits.2⟩]
        rfl
      · rw [if_neg hfits, if_neg fun h => hfits ⟨by omega, h.2⟩]
        rfl
    · -- the memory ends in this string
      rw [List.take_append_of_le_length (by omega), if_neg (by omega)]
      exact strings_unended fun h => hnul (List.mem_of_mem_take h)

end Lib.CString
