import DevUtil.Lib.Fields
import DevUtil.Lib.Replace

/-!
# Titles

`clean_git_title` of `utils.py` takes tags away and replaces characters, one after the other, in
the order in which a dictionary yields them.

    white space behind a title is still there, or a tag has gone with it  (cleanGitTitle_trailing)
    white space around a title is never lost unseen                       (cleanGitTitle_strip_iff)
-/

namespace SyzbotAutotriager

open Lib Fields

def replacer : List (String × String) :=
  [("UPSTREAM: ", ""), ("BACKPORT: ", ""), ("\xe2\x80\x9c", "\""), ("\xe2\x80\x98", "'"),
    ("\xe2\x80\x99", "'"),
    ("\xef\xbc\x9a", ":"), ("\xe2\x80\x9d", "\""), ("\xe2\x80\xa6", "..."), ("\xe2\x80\x8b", ""),
      ("\xc2\xb7", " "),
    ("\xd1\x96", "i"), ("\xc2\xb5", "m"), ("\xc3\xb8", "o"), ("\xc3\xbc", "u"), ("\xc2\xb2", "2"),
      ("\xc2\xa0", " "),
    ("\xc3\x89", "E"), ("\xce\x95", "E"), ("\xd1\x95", "s"), ("\xc3\xa9", "e"), ("\xc3\xa1", "a"),
      ("\xc3\xb6", "o"),
    ("\xc4\xa5", "h"), ("\xc2\xae", ""), ("\xc2\xb6", "["), ("\xc3\xa4", "a"), ("\xb4", "'"),
      ("\x1b", "")]

/-- The replacements in an order in which the dictionary may yield them. -/
structure ReplacerOrder where
  items : List (String × String)
  perm : items.Perm replacer

def cleanGitTitle (order : ReplacerOrder) (p : List Char) : List Char :=
  order.items.foldl (fun p x => replaceFrom x.1.toList x.2.toList 0 p) p

/-! ## White space around a title -/

/-- The characters of the tags. -/
def tagChars : List Char := "UPSTREAM:BACKPORT:".toList

/-- A tag, with the space behind it, is taken away. -/
structure TakesTag (x : String × String) (c : Char) (tag : List Char) : Prop where
  pattern : x.1.toList = c :: (tag ++ [' '])
  replacement : x.2.toList = []
  once : c ∉ tag
  chars : ∀ d ∈ c :: tag, tagChars.contains d = true

/-- A pattern begins without a space, and its last character is no space and in no tag. -/
def Apart (pattern : List Char) : Bool :=
  (pattern.head?.any fun c => !Fields.isSpace c) &&
    pattern.getLast?.any fun z => !Fields.isSpace z && !tagChars.contains z

theorem replacer_cases {x : String × String} (hx : x ∈ replacer) :
    Apart x.1.toList = true ∨ ∃ c tag, TakesTag x c tag := by
  have hrest : (replacer.drop 2).all (fun x => Apart x.1.toList) = true := by decide
  rcases List.mem_cons.mp hx with rfl | hx
  · exact .inr
      ⟨'U', "PSTREAM:".toList, by decide, by decide, by decide, List.all_eq_true.mp (by decide)⟩
  rcases List.mem_cons.mp hx with rfl | hx
  · exact .inr
      ⟨'B', "ACKPORT:".toList, by decide, by decide, by decide, List.all_eq_true.mp (by decide)⟩
  · exact .inl (List.all_eq_true.mp hrest x hx)

theorem tagChars_not_space : ∀ c ∈ tagChars, Fields.isSpace c = false :=
  forall_eq_false_of_all (by decide)

theorem TakesTag.mem {x : String × String} {c : Char} {tag : List Char} (h : TakesTag x c tag) :
    ∀ d ∈ c :: tag, d ∈ tagChars :=
  fun d hd => List.contains_iff_mem.mp (h.chars d hd)

/-- No replacement begins with white space. -/
theorem exists_head {x : String × String} (hx : x ∈ replacer) :
    ∃ c, x.1.toList.head? = some c ∧ Fields.isSpace c = false := by
  rcases replacer_cases hx with h | ⟨c, tag, h⟩
  · rw [Apart, Bool.and_eq_true, Option.any_eq_true] at h
    obtain ⟨c, hc, hspace⟩ := h.1
    exact ⟨c, hc, by simpa using hspace⟩
  · exact ⟨c, by rw [h.pattern]; rfl, tagChars_not_space c (h.mem c List.mem_cons_self)⟩

theorem replaceFrom_spaces {x : String × String} (hx : x ∈ replacer) {spaces : List Char}
    (hspaces : ∀ c ∈ spaces, Fields.isSpace c = true) :
    replaceFrom x.1.toList x.2.toList 0 spaces = spaces := by
  obtain ⟨c, hc, hspace⟩ := exists_head hx
  apply replaceFrom_of_not_infix
  intro hin
  have hmem : c ∈ spaces := hin.mem (List.mem_of_head? hc)
  exact Bool.false_ne_true (hspace.symm.trans (hspaces c hmem))

/-- What is made of a text with white space behind it, against what is made of it alone: the white
space is still there, or tags have been taken away for it. -/
structure Trailing (n : Nat) (alone spaced : List Char) : Prop where
  split : ∃ p tags spaces, alone = p ++ tags ∧ spaced = p ++ spaces ∧ (∀ c ∈ tags, c ∈ tagChars) ∧
    (∀ c ∈ spaces, Fields.isSpace c = true) ∧ n ≤ tags.length + spaces.length

variable {n : Nat} {alone spaced : List Char} {x : String × String}

theorem Trailing.replace (h : Trailing n alone spaced) (hx : x ∈ replacer) :
    Trailing n (replaceFrom x.1.toList x.2.toList 0 alone)
      (replaceFrom x.1.toList x.2.toList 0 spaced) := by
  obtain ⟨p, tags, spaces, rfl, rfl, htags, hspaces, hn⟩ := h.split
  rcases replacer_cases hx with hapart | ⟨c, tag, htake⟩
  · rw [Apart, Bool.and_eq_true, Option.any_eq_true, Option.any_eq_true] at hapart
    obtain ⟨-, z, hz, hlast⟩ := hapart
    have hlast : Fields.isSpace z = false ∧ z ∉ tagChars := by simpa using hlast
    have hzspaces : z ∉ spaces := fun hin => Bool.false_ne_true (hlast.1.symm.trans (hspaces z hin))
    rw [replaceFrom_append_last hz (fun hin => hlast.2 (htags z hin)),
      replaceFrom_append_last hz hzspaces]
    exact ⟨_, tags, spaces, rfl, rfl, htags, hspaces, hn⟩
  · have hlast : x.1.toList.getLast? = some ' ' := by
      rw [htake.pattern, ← List.cons_append, List.getLast?_concat]
    have hspace : ' ' ∉ tagChars := by decide
    have hkept : ' ' ∉ c :: tag := fun hin => hspace (htake.mem _ hin)
    rw [replaceFrom_append_last hlast fun hin => hspace (htags _ hin)]
    by_cases hends : c :: tag <:+ p ∧ [' '] <+: spaces
    · -- the tag at the end goes, with the first space
      obtain ⟨⟨p, rfl⟩, spaces, rfl⟩ := hends
      have honce : c ∉ tag ++ [' '] := by
        intro hin
        rcases List.mem_append.mp hin with hin | hin
        · exact htake.once hin
        · exact hkept (List.mem_singleton.mp hin ▸ List.mem_cons_self)
      have hfound : p ++ c :: tag ++ ([' '] ++ spaces) = p ++ (c :: (tag ++ [' ']) ++ spaces) := by
        simp
      have hrest : replaceFrom x.1.toList x.2.toList 0 spaces = spaces :=
        replaceFrom_spaces hx fun d hd => hspaces d (List.mem_append_right _ hd)
      rw [replaceFrom_append_last hlast hkept, hfound]
      rw [htake.pattern] at hrest ⊢
      rw [replaceFrom_append_old honce, hrest, htake.replacement, List.nil_append,
        List.append_assoc]
      refine ⟨_, c :: tag ++ tags, spaces, rfl, rfl, ?_,
        fun d hd => hspaces d (List.mem_append_right _ hd), ?_⟩
      · intro d hd
        exact (List.mem_append.mp hd).elim (htake.mem d) (htags d)
      · simp only [List.length_append, List.length_cons, List.length_nil] at hn ⊢
        omega
    · rw [replaceFrom_append_right]
      · exact ⟨_, tags, spaces, rfl, rfl, htags, hspaces, hn⟩
      · rw [htake.pattern]
        exact List.cons_ne_nil _ _
      · intro hin
        have hc : c ∈ spaces := hin.mem (htake.pattern ▸ List.mem_cons_self)
        exact absurd (hspaces c hc)
          (by rw [tagChars_not_space c (htake.mem c List.mem_cons_self)]; decide)
      · -- only the last character of the pattern is white space
        intro u v huv hv hu hvs
        rw [htake.pattern, ← List.cons_append] at huv
        obtain ⟨v, y, rfl⟩ := List.eq_nil_or_concat v |>.resolve_left hv
        rw [List.concat_eq_append, ← List.append_assoc] at huv
        obtain ⟨htag, hy⟩ := List.append_inj' huv rfl
        have hnil : v = [] := by
          by_contra hne
          obtain ⟨d, hd⟩ := List.exists_mem_of_ne_nil v hne
          have hdtag : d ∈ c :: tag := htag ▸ List.mem_append_right u hd
          have hdspace :=
            hspaces d (hvs.mem (by rw [List.concat_eq_append]; exact List.mem_append_left _ hd))
          rw [tagChars_not_space d (htake.mem d hdtag)] at hdspace
          cases hdspace
        subst hnil
        rw [List.append_nil] at htag
        exact hends ⟨htag ▸ hu, hy ▸ hvs⟩

theorem cleanGitTitle_trailing (order : ReplacerOrder) (s : List Char) {spaces : List Char}
    (hspaces : ∀ c ∈ spaces, Fields.isSpace c = true) :
    Trailing spaces.length (cleanGitTitle order s) (cleanGitTitle order (s ++ spaces)) := by
  have hall : ∀ x ∈ order.items, x ∈ replacer := fun x hx => order.perm.mem_iff.mp hx
  have hstart : Trailing spaces.length s (s ++ spaces) :=
    ⟨s, [], spaces, (List.append_nil s).symm, rfl, by simp, hspaces, by simp⟩
  unfold cleanGitTitle
  generalize order.items = items at hall
  generalize s ++ spaces = spaced at hstart
  induction items generalizing s spaced with
  | nil => exact hstart
  | cons x items ih =>
    exact ih _ (fun y hy => hall y (List.mem_cons_of_mem x hy))
      _ (hstart.replace (hall x List.mem_cons_self))

theorem cleanGitTitle_leading (order : ReplacerOrder) {spaces : List Char}
    (hspaces : ∀ c ∈ spaces, Fields.isSpace c = true) (s : List Char) :
    cleanGitTitle order (spaces ++ s) = spaces ++ cleanGitTitle order s := by
  have hall : ∀ x ∈ order.items, x ∈ replacer := fun x hx => order.perm.mem_iff.mp hx
  unfold cleanGitTitle
  generalize order.items = items at hall
  induction items generalizing s with
  | nil => rfl
  | cons x items ih =>
    obtain ⟨c, hc, hspace⟩ := exists_head (hall x List.mem_cons_self)
    have hnone : c ∉ spaces := fun hin => Bool.false_ne_true (hspace.symm.trans (hspaces c hin))
    rw [List.foldl_cons, replaceFrom_append hc hnone, List.foldl_cons]
    exact ih _ fun y hy => hall y (List.mem_cons_of_mem x hy)

/-- Cleaning needs all the spaces around a title. -/
theorem cleanGitTitle_strip_iff (order : ReplacerOrder) (title : List Char) :
    cleanGitTitle order (strip title) = cleanGitTitle order title ↔ strip title = title := by
  refine ⟨fun h => ?_, congrArg _⟩
  obtain ⟨before, after, hbefore, hafter, htitle⟩ := exists_strip title
  obtain ⟨p, tags, spaces, halone, hspaced, htags, hspaces, hlen⟩ :=
    (cleanGitTitle_trailing order (strip title) hafter).split
  have hclean : p ++ tags = before ++ (p ++ spaces) := by
    rw [← halone, h, ← hspaced, ← cleanGitTitle_leading order hbefore, ← htitle]
  -- the white space is counted on both sides
  have hcount := congrArg (List.countP Fields.isSpace) hclean
  have htagsCount : tags.countP Fields.isSpace = 0 :=
    List.countP_eq_zero.mpr fun c hc => by simp [tagChars_not_space c (htags c hc)]
  rw [List.countP_append, List.countP_append, List.countP_append, htagsCount,
    List.countP_eq_length.mpr hbefore, List.countP_eq_length.mpr hspaces] at hcount
  have hlength := congrArg List.length hclean
  rw [List.length_append, List.length_append, List.length_append] at hlength
  have hnone : before = [] ∧ after = [] :=
    ⟨List.eq_nil_of_length_eq_zero (by omega), List.eq_nil_of_length_eq_zero (by omega)⟩
  rw [hnone.1, hnone.2, List.nil_append, List.append_nil] at htitle
  exact htitle.symm

end SyzbotAutotriager
