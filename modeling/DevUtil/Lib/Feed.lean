import Mathlib.Data.List.Nodup

/-!
# Feeds read by a cursor

A `Feed id` is a growing list of items with distinct identifiers after a base.
A reader keeps the identifier of the last item it has handled and asks for the
items `after` it.  It may leave items out (`keep`), then its cursor stays behind
them and they are offered again, and left out again.

* `Tip`: the cursor stands for the first `n` items.
* `Tip.fetch`: reading on moves the cursor to where the feed was visible.
-/

namespace Lib

/-- Items with pairwise distinct identifiers, none of them the base. -/
structure Feed {α κ : Type} (id : α → κ) where
  base : κ
  items : List α
  nodup : (base :: items.map id).Nodup

namespace Feed

variable {α κ : Type} {id : α → κ}

/-- What is visible once `n` items are there. -/
def take (f : Feed id) (n : Nat) : Feed id where
  base := f.base
  items := f.items.take n
  nodup := f.nodup.sublist (((List.take_sublist n f.items).map id).cons_cons f.base)

theorem nodup_items (f : Feed id) : (f.items.map id).Nodup := (List.nodup_cons.mp f.nodup).2

/-- Two items with one identifier are the same item. -/
theorem eq_of_id {f : Feed id} {a b : α} (ha : a ∈ f.items) (hb : b ∈ f.items) (h : id a = id b) :
    a = b :=
  List.inj_on_of_nodup_map f.nodup_items ha hb h

/-- What comes after the first `n` items is not among them. -/
theorem id_ne_of_mem_drop {f : Feed id} {n m : Nat} {a b : α} (ha : a ∈ (f.items.take m).drop n)
    (hb : b ∈ f.items.take n) : id a ≠ id b := by
  have ha' : a ∈ f.items.drop n := ((List.take_sublist m f.items).drop n).subset ha
  have hnd := f.nodup_items
  rw [← List.take_append_drop n f.items, List.map_append] at hnd
  have hdis := List.disjoint_of_nodup_append hnd
  exact fun he => hdis (List.mem_map_of_mem hb) (he ▸ List.mem_map_of_mem ha')

variable [DecidableEq κ]

/-- The items after a cursor; `none` if the feed does not have it. -/
def after (f : Feed id) (start : κ) : Option (List α) :=
  if start = f.base then some f.items
  else match f.items.dropWhile fun a => decide (id a ≠ start) with
    | [] => none
    | _ :: rest => some rest

theorem after_base (f : Feed id) : f.after f.base = some f.items := if_pos rfl

theorem after_item {f : Feed id} {pre post : List α} {a : α} (h : f.items = pre ++ a :: post) :
    f.after (id a) = some post := by
  have hnd := f.nodup
  rw [h, List.map_append, List.map_cons] at hnd
  obtain ⟨hbase, hrest⟩ := List.nodup_cons.mp hnd
  have hne : id a ≠ f.base := by
    intro he
    apply hbase
    rw [← he]
    simp
  have hpre : ∀ x ∈ pre, id x ≠ id a := by
    intro x hx he
    have hdis := List.disjoint_of_nodup_append hrest
    exact hdis (List.mem_map_of_mem hx) (by rw [he]; simp)
  have hdrop : f.items.dropWhile (fun x => decide (id x ≠ id a)) = a :: post := by
    rw [h, List.dropWhile_append_of_pos (by simpa using hpre), List.dropWhile_cons_of_neg (by simp)]
  unfold after
  rw [if_neg hne, hdrop]

theorem after_sublist {f : Feed id} {start : κ} {as : List α} (h : f.after start = some as) :
    as.Sublist f.items := by
  unfold after at h
  split at h
  · cases h
    exact List.Sublist.refl _
  · split at h
    · cases h
    · next a _ hd =>
      cases h
      exact (List.sublist_cons_self a as).trans (hd ▸ List.dropWhile_sublist _)

/-- The start is the base or an item, and what is after it ends the feed. -/
theorem exists_of_after {f : Feed id} {start : κ} {as : List α} (h : f.after start = some as) :
    ∃ pre, f.items = pre ++ as ∧ start ∈ f.base :: pre.map id := by
  unfold after at h
  split at h
  · next hbase =>
    cases h
    exact ⟨[], rfl, by simp [hbase]⟩
  · split at h
    · cases h
    · next a _ hd =>
      cases h
      have hhead := List.head?_dropWhile_not (fun a => decide (id a ≠ start)) f.items
      rw [hd] at hhead
      have ha : id a = start := by simpa using hhead
      have hitems :=
        List.takeWhile_append_dropWhile (p := fun a => decide (id a ≠ start)) (l := f.items)
      rw [hd] at hitems
      refine ⟨f.items.takeWhile (fun a => decide (id a ≠ start)) ++ [a], ?_, by simp [ha]⟩
      rw [List.append_assoc]
      exact hitems.symm

theorem id_ne_start {f : Feed id} {start : κ} {as : List α} {a : α} (h : f.after start = some as)
    (ha : a ∈ as) :
    id a ≠ start := by
  obtain ⟨pre, hitems, hstart⟩ := exists_of_after h
  have hnd := f.nodup
  rw [hitems, List.map_append, ← List.cons_append] at hnd
  have hdis := List.disjoint_of_nodup_append hnd
  exact fun he => hdis hstart (he ▸ List.mem_map_of_mem ha)

/-! ## The cursor -/

/-- From the cursor `t` on, the feed offers the items from the `n`-th on, up to what
the reader leaves out. -/
def Tip (f : Feed id) (keep : α → Bool) (n : Nat) (t : κ) : Prop :=
  ∀ m, n ≤ m → ∃ as, (f.take m).after t = some as ∧
    as.filter keep = ((f.items.take m).drop n).filter keep

/-- The cursor after reading `as`. -/
def nextTip (id : α → κ) (t : κ) (as : List α) : κ := (as.getLast?.map id).getD t

theorem nextTip_append (t : κ) (as bs : List α) :
    nextTip id t (as ++ bs) = nextTip id (nextTip id t as) bs := by
  unfold nextTip
  rw [List.getLast?_append]
  cases bs.getLast? <;> rfl

/-- Reading on from the cursor. -/
theorem after_nextTip {f : Feed id} {t : κ} {as bs : List α} (h : f.after t = some (as ++ bs)) :
    f.after (nextTip id t as) = some bs := by
  obtain rfl | ⟨as', a, rfl⟩ := List.eq_nil_or_concat as
  · exact h
  · obtain ⟨pre, hitems, -⟩ := exists_of_after h
    have hsplit : f.items = (pre ++ as') ++ a :: bs := by simp [hitems]
    have htip : nextTip id t (as'.concat a) = id a := by simp [nextTip]
    rw [htip]
    exact after_item hsplit

theorem Tip.base (f : Feed id) (keep : α → Bool) : f.Tip keep 0 f.base :=
  fun m _ => ⟨f.items.take m, (f.take m).after_base, rfl⟩

/-- What becomes visible in two steps. -/
theorem drop_take_append (as : List α) {n m k : Nat} (hnm : n ≤ m) (hmk : m ≤ k) :
    (as.take m).drop n ++ (as.take k).drop m = (as.take k).drop n := by
  have htake : (as.take k).take m = as.take m := by rw [List.take_take, Nat.min_eq_left hmk]
  have h := List.take_append_drop (m - n) ((as.take k).drop n)
  rw [List.drop_drop, List.take_drop, Nat.add_sub_cancel' hnm, htake] at h
  exact h

/-- Reading the items up to the `m`-th moves the cursor there. -/
theorem Tip.fetch {f : Feed id} {keep : α → Bool} {n m : Nat} {t : κ} (h : f.Tip keep n t)
    (hnm : n ≤ m) : f.Tip keep m (nextTip id t (((f.items.take m).drop n).filter keep)) := by
  intro k hmk
  have happ := drop_take_append f.items hnm hmk
  cases hlast : (((f.items.take m).drop n).filter keep).getLast? with
  | none =>
    -- nothing kept: the cursor stays, and what it offers more is left out again
    obtain ⟨as, has, hfilter⟩ := h k (Nat.le_trans hnm hmk)
    refine ⟨as, ?_, ?_⟩
    · rw [nextTip, hlast]
      exact has
    · rw [hfilter, ← happ, List.filter_append, List.getLast?_eq_none_iff.mp hlast, List.nil_append]
  | some a =>
    obtain ⟨kept, hkept⟩ := List.getLast?_eq_some_iff.mp hlast
    obtain ⟨l₁, l₂, hsplit, -, hl₂⟩ := List.filter_eq_append_iff.mp hkept
    obtain ⟨p, q, hpq, -, -, hq⟩ := List.filter_eq_cons_iff.mp hl₂
    have hk : (f.take k).items = (f.items.take n ++ l₁ ++ p) ++
        a :: (q ++ (f.items.take k).drop m) := by
      have htake : (f.items.take k).take n = f.items.take n := by
        rw [List.take_take, Nat.min_eq_left (Nat.le_trans hnm hmk)]
      have hall := List.take_append_drop n (f.items.take k)
      rw [htake, ← happ, hsplit, hpq] at hall
      refine hall.symm.trans ?_
      simp only [List.append_assoc, List.cons_append]
    refine ⟨q ++ (f.items.take k).drop m, ?_, ?_⟩
    · rw [nextTip, hlast]
      exact after_item hk
    · rw [List.filter_append, hq, List.nil_append]

end Feed

end Lib
