import Mathlib.Data.List.Nodup
import Mathlib.Data.List.ReduceOption

/-!
# Serving requests one after the other

`serve pick` goes through the requests and gives each what `pick` finds for it,
where `pick` is told what has been given away before.  If `pick` never finds
what is taken, nothing is given away twice (`nodup_serve`).
-/

namespace Lib

variable {ρ α : Type}

/-- What each request gets; `taken` has been given away before. -/
def serve (pick : ρ → List α → Option α) : List α → List ρ → List (Option α)
  | _, [] => []
  | taken, r :: rs => pick r taken :: serve pick (taken ++ (pick r taken).toList) rs

variable {pick : ρ → List α → Option α}

@[simp] theorem length_serve (taken : List α) (rs : List ρ) :
    (serve pick taken rs).length = rs.length := by
  induction rs generalizing taken with
  | nil => rfl
  | cons r rs ih => simp [serve, ih]

theorem mem_serve {taken : List α} {rs : List ρ} {o : Option α} (h : o ∈ serve pick taken rs) :
    ∃ r ∈ rs, ∃ before, o = pick r before := by
  induction rs generalizing taken with
  | nil => cases h
  | cons r rs ih =>
    rcases List.mem_cons.mp h with rfl | h
    · exact ⟨r, List.mem_cons_self, taken, rfl⟩
    · obtain ⟨r', hr', before, ho⟩ := ih h
      exact ⟨r', List.mem_cons_of_mem _ hr', before, ho⟩

/-- Next to each item stands what was found for its request. -/
theorem mem_zip_serve {σ : Type} {f : σ → ρ} {taken : List α} {items : List σ} {item : σ}
    {o : Option α} (h : (item, o) ∈ items.zip (serve pick taken (items.map f))) :
    ∃ before, o = pick (f item) before := by
  induction items generalizing taken with
  | nil => cases h
  | cons i items ih =>
    rw [List.map_cons, serve, List.zip_cons_cons] at h
    rcases List.mem_cons.mp h with heq | h
    · cases heq
      exact ⟨taken, rfl⟩
    · exact ih h

/-- A request gets what `pick` finds after the requests before it. -/
theorem serve_getElem? (pick : ρ → List α → Option α) (taken : List α) (rs : List ρ) (i : Nat) :
    (serve pick taken rs)[i]? =
    rs[i]?.map fun r => pick r (taken ++ ((serve pick taken rs).take i).reduceOption) := by
  induction rs generalizing taken i with
  | nil => simp [serve]
  | cons r rs ih =>
    cases i with
    | zero => simp [serve]
    | succ i =>
      have htaken : taken ++ ((serve pick taken (r :: rs)).take (i + 1)).reduceOption =
          (taken ++ (pick r taken).toList) ++
            ((serve pick (taken ++ (pick r taken).toList) rs).take i).reduceOption := by
        rw [serve, List.take_succ_cons, List.append_assoc]
        cases pick r taken <;> simp
      rw [htaken, serve, List.getElem?_cons_succ, List.getElem?_cons_succ, ih]

/-- Nothing is given away twice. -/
theorem nodup_serve (hpick : ∀ r taken a, pick r taken = some a → a ∉ taken) {taken : List α}
    (htaken : taken.Nodup) (rs : List ρ) : (taken ++ (serve pick taken rs).reduceOption).Nodup := by
  induction rs generalizing taken with
  | nil => simpa [serve] using htaken
  | cons r rs ih =>
    cases h : pick r taken with
    | none =>
      have hrest := ih htaken
      simpa [serve, h] using hrest
    | some a =>
      have hrest := ih (htaken.concat (hpick r taken a h))
      simpa [serve, h] using hrest

end Lib
