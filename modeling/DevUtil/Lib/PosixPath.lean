import Mathlib.Data.List.DropRight
import Mathlib.Data.List.TakeWhile

/-!
# Python's `os.path`

On POSIX, for the characters of a path.

    splitext of a name with a stem = the stem and the extension          (splitext_dot)
    abspath = the parts that are left, under one root                    (abspath_eq)
    a path that begins with another one is below it, or has a longer
      name in the place of the last one                                  (parts_prefix_of_chars)
-/

namespace Lib.PosixPath

/-! ## Names and extensions -/

/-- `os.path.basename` -/
def basename (p : List Char) : List Char := p.rtakeWhile (· ≠ '/')

/-- `os.path.splitext`: the dots that a name begins with are no extension. -/
def splitext (p : List Char) : List Char × List Char :=
  let ext := '.' :: (basename p).rtakeWhile (· ≠ '.')
  let stem := (basename p).take ((basename p).length - ext.length)
  if '.' ∈ basename p ∧ stem.any (· ≠ '.') then (p.take (p.length - ext.length), ext) else (p, [])

theorem rtakeWhile_append {α : Type} {p : α → Bool} {s t : List α} (ht : ∀ c ∈ t, p c = true) :
    (s ++ t).rtakeWhile p = s.rtakeWhile p ++ t := by
  induction t using List.reverseRecOn with
  | nil => simp
  | append_singleton t c ih =>
    have hc : p c = true := ht c (List.mem_append_right t (List.mem_singleton.mpr rfl))
    have ih := ih fun d hd => ht d (List.mem_append_left _ hd)
    rw [← List.append_assoc, List.rtakeWhile_concat_pos _ _ _ hc, ih, List.append_assoc]

/-- The extension is in the last component. -/
theorem basename_append {q e : List Char} (he : '/' ∉ e) : basename (q ++ e) = basename q ++ e :=
  rtakeWhile_append fun c hc => by
    have hne : c ≠ '/' := fun h => he (h ▸ hc)
    simpa using hne

theorem splitext_dot {q e : List Char} (hdot : '.' ∉ e) (hslash : '/' ∉ e) :
    splitext (q ++ '.' :: e) = if (basename q).any (· ≠ '.') then (q, '.' :: e)
      else (q ++ '.' :: e, []) := by
  have hbase : basename (q ++ '.' :: e) = basename q ++ '.' :: e := by
    apply basename_append
    intro h
    rcases List.mem_cons.mp h with h | h
    · exact absurd h (by decide)
    · exact hslash h
  have hext : (basename q ++ '.' :: e).rtakeWhile (· ≠ '.') = e := by
    have hsplit : basename q ++ '.' :: e = (basename q ++ ['.']) ++ e := by simp
    rw [hsplit, rtakeWhile_append fun c hc => by
      have hne : c ≠ '.' := fun h => hdot (h ▸ hc)
      simpa using hne]
    rw [List.rtakeWhile_concat_neg _ _ _ (by simp)]
    rfl
  have hstem : (basename q ++ '.' :: e).take ((basename q ++ '.' :: e).length - ('.' :: e).length) =
      basename q := by
    rw [List.length_append, Nat.add_sub_cancel, List.take_left]
  have hroot : (q ++ '.' :: e).take ((q ++ '.' :: e).length - ('.' :: e).length) = q := by
    rw [List.length_append, Nat.add_sub_cancel, List.take_left]
  have hmem : '.' ∈ basename q ++ '.' :: e := List.mem_append_right _ List.mem_cons_self
  unfold splitext
  simp only [hbase, hext, hstem, hroot, hmem, true_and]

/-! ## Absolute paths -/

/-- A component that `normpath` leaves. -/
structure IsPart (part : List Char) : Prop where
  ne_nil : part ≠ []
  ne_dot : part ≠ ['.']
  ne_dotdot : part ≠ ['.', '.']
  noSlash : '/' ∉ part

/-- An absolute path without `.`, `..` and repeated slashes; two slashes at its start may stay. -/
structure AbsPath where
  double : Bool
  parts : List (List Char)
  fits : ∀ part ∈ parts, IsPart part

def AbsPath.chars (a : AbsPath) : List Char :=
  (if a.double then ['/', '/'] else ['/']) ++ ['/'].intercalate a.parts

/-- The names in a path. -/
def components (p : List Char) : List (List Char) := (p.splitOn '/').filter (· ≠ [])

/-- One round of `normpath`. -/
def normStep (rooted : Bool) (newComps : List (List Char)) (comp : List Char) : List (List Char) :=
  if comp = [] ∨ comp = ['.'] then newComps
  else if comp ≠ ['.', '.'] ∨ (rooted = false ∧ newComps = []) ∨
    newComps.getLast? = some ['.', '.'] then
    newComps ++ [comp]
  else newComps.dropLast

/-- Three and more slashes are one. -/
def initialSlashes : List Char → Nat
  | '/' :: '/' :: '/' :: _ => 1
  | '/' :: '/' :: _ => 2
  | '/' :: _ => 1
  | _ => 0

/-- `os.path.normpath` -/
def normpath (p : List Char) : List Char :=
  if p = [] then ['.']
  else
    let slashes := initialSlashes p
    let comps := (p.splitOn '/').foldl (normStep (decide (slashes ≠ 0))) []
    let path := List.replicate slashes '/' ++ ['/'].intercalate comps
    if path = [] then ['.'] else path

/-- `os.path.join` -/
def join (a b : List Char) : List Char :=
  if b.head? = some '/' then b
  else if a = [] ∨ a.getLast? = some '/' then a ++ b
  else a ++ '/' :: b

/-- `os.path.abspath`, in the directory `cwd`. -/
def abspath (cwd p : List Char) : List Char :=
  normpath (if p.head? = some '/' then p else join cwd p)

theorem not_mem_splitOn {c : Char} {s : List Char} : ∀ q ∈ s.splitOn c, c ∉ q := by
  induction s with
  | nil =>
    intro q hq
    rw [List.splitOn_nil, List.mem_singleton] at hq
    simp [hq]
  | cons x s ih =>
    intro q hq
    rw [List.splitOn_cons_eq_if_modifyHead] at hq
    split at hq
    · rcases List.mem_cons.mp hq with rfl | hq
      · exact List.not_mem_nil
      · exact ih q hq
    · next hx =>
      cases hs : s.splitOn c with
      | nil => exact absurd hs (List.splitOn_ne_nil c s)
      | cons r rs =>
        rw [hs] at hq ih
        rcases List.mem_cons.mp hq with rfl | hq
        · intro hc
          rcases List.mem_cons.mp hc with rfl | hc
          · simp at hx
          · exact ih r List.mem_cons_self hc
        · exact ih q (List.mem_cons_of_mem _ hq)

theorem normStep_fits {newComps : List (List Char)} {comp : List Char}
    (h : ∀ part ∈ newComps, IsPart part) (hcomp : '/' ∉ comp) :
    ∀ part ∈ normStep true newComps comp, IsPart part := by
  unfold normStep
  split
  · exact h
  · next hdot =>
    rw [not_or] at hdot
    split
    · next hpush =>
      -- after a root no `..` is ever left
      have hdotdot : comp ≠ ['.', '.'] := by
        rcases hpush with hne | ⟨hroot, -⟩ | hlast
        · exact hne
        · cases hroot
        · exact absurd rfl (h _ (List.mem_of_getLast? hlast)).ne_dotdot
      intro part hpart
      rcases List.mem_append.mp hpart with hpart | hpart
      · exact h part hpart
      · rw [List.mem_singleton.mp hpart]
        exact ⟨hdot.1, hdot.2, hdotdot, hcomp⟩
    · exact fun part hpart => h part ((List.dropLast_sublist _).subset hpart)

theorem foldl_normStep_fits {comps newComps : List (List Char)}
    (hnew : ∀ part ∈ newComps, IsPart part) (hcomps : ∀ comp ∈ comps, '/' ∉ comp) :
    ∀ part ∈ comps.foldl (normStep true) newComps, IsPart part := by
  induction comps generalizing newComps with
  | nil => exact hnew
  | cons comp comps ih =>
    rw [List.foldl_cons]
    exact ih (normStep_fits hnew (hcomps comp List.mem_cons_self)) fun c hc =>
      hcomps c (List.mem_cons_of_mem _ hc)

/-- The path that is left of a rooted one. -/
def AbsPath.ofChars (p : List Char) : AbsPath where
  double := decide (initialSlashes p = 2)
  parts := (p.splitOn '/').foldl (normStep true) []
  fits := foldl_normStep_fits (fun _ h => absurd h List.not_mem_nil) not_mem_splitOn

theorem initialSlashes_rooted {p : List Char} (h : p.head? = some '/') :
    initialSlashes p = 1 ∨ initialSlashes p = 2 := by
  unfold initialSlashes
  split
  · exact .inl rfl
  · exact .inr rfl
  · exact .inl rfl
  · next hnot =>
    cases p with
    | nil => cases h
    | cons c p =>
      cases h
      exact absurd rfl (hnot p)

theorem normpath_rooted {p : List Char} (h : p.head? = some '/') :
    normpath p = (AbsPath.ofChars p).chars := by
  have hne : p ≠ [] := by
    rintro rfl
    cases h
  unfold normpath AbsPath.chars AbsPath.ofChars
  rw [if_neg hne]
  rcases initialSlashes_rooted h with hs | hs
  · simp [hs]
  · simp [hs]

/-- Where a path leads from the directory `cwd`. -/
def AbsPath.resolve (cwd : AbsPath) (p : List Char) : AbsPath :=
  .ofChars (if p.head? = some '/' then p else join cwd.chars p)

theorem chars_head (a : AbsPath) : a.chars.head? = some '/' := by
  unfold AbsPath.chars
  split <;> rfl

theorem abspath_eq (cwd : AbsPath) (p : List Char) :
    abspath cwd.chars p = (cwd.resolve p).chars := by
  unfold abspath AbsPath.resolve
  apply normpath_rooted
  split
  · next h => exact h
  · unfold join
    have hne : cwd.chars ≠ [] := by
      intro hnil
      have hhead := chars_head cwd
      rw [hnil] at hhead
      cases hhead
    have happend : ∀ q : List Char, (cwd.chars ++ q).head? = some '/' := by
      intro q
      rw [List.head?_append_of_ne_nil _ hne, chars_head]
    split
    · next h => exact h
    · split
      · exact happend p
      · exact happend _

/-! ## One path below another -/

/-- Two lists of names where the second has a longer name in the place of the last one of the
first. -/
def LongerName (ps qs : List (List Char)) : Prop :=
  ∃ init last x rest, x ≠ [] ∧ ps = init ++ [last] ∧ qs = init ++ (last ++ x) :: rest

theorem intercalate_cons (p : List Char) {ps : List (List Char)} (h : ps ≠ []) :
    ['/'].intercalate (p :: ps) = p ++ '/' :: ['/'].intercalate ps := by
  cases ps with
  | nil => exact absurd rfl h
  | cons q ps => simp

theorem not_prefix_of_longerName {ps qs : List (List Char)} (h : LongerName ps qs) :
    ¬ps <+: qs := by
  obtain ⟨init, last, x, rest, hx, rfl, rfl⟩ := h
  rintro ⟨t, ht⟩
  rw [List.append_assoc] at ht
  have hcons := List.append_cancel_left ht
  rw [List.singleton_append] at hcons
  have hlast := (List.cons.inj hcons).1
  exact hx (List.append_right_eq_self.mp hlast.symm)

theorem prefix_of_longerName {ps qs : List (List Char)} (h : LongerName ps qs) :
    ['/'].intercalate ps <+: ['/'].intercalate qs := by
  obtain ⟨init, last, x, rest, hx, rfl, rfl⟩ := h
  induction init with
  | nil =>
    rw [List.nil_append, List.nil_append, List.intercalate_singleton]
    cases rest with
    | nil =>
      rw [List.intercalate_singleton]
      exact List.prefix_append last x
    | cons q rest =>
      rw [intercalate_cons _ (List.cons_ne_nil q rest), List.append_assoc]
      exact List.prefix_append last _
  | cons p init ih =>
    rw [List.cons_append, List.cons_append, intercalate_cons p (by simp),
      intercalate_cons p (by simp)]
    exact (List.prefix_append_right_inj p).mpr ((List.cons_prefix_cons).mpr ⟨rfl, ih⟩)

/-- A name that begins a path begins the first name of it. -/
theorem prefix_name {p q t : List Char} (hp : '/' ∉ p) (ht : t = [] ∨ t.head? = some '/')
    (h : p <+: q ++ t) :
    p <+: q := by
  by_cases hlen : p.length ≤ q.length
  · exact List.prefix_of_prefix_length_le h (List.prefix_append q t) hlen
  · obtain ⟨x, rfl⟩ : q <+: p :=
      List.prefix_of_prefix_length_le (List.prefix_append q t) h (by omega)
    rw [List.prefix_append_right_inj] at h
    cases x with
    | nil => exact absurd (by simp) hlen
    | cons c x =>
      rcases ht with rfl | ht
      · exact absurd (List.prefix_nil.mp h) (List.cons_ne_nil c x)
      · obtain ⟨y, rfl⟩ := h
        cases ht
        exact absurd (List.mem_append_right q List.mem_cons_self) hp

theorem longerName_cons (p : List Char) {ps qs : List (List Char)} (h : LongerName ps qs) :
    LongerName (p :: ps) (p :: qs) := by
  obtain ⟨init, last, x, rest, hx, rfl, rfl⟩ := h
  exact ⟨p :: init, last, x, rest, hx, rfl, rfl⟩

/-- What a path of names that begins another one is for it. -/
theorem prefix_or_longerName {ps qs : List (List Char)} (hps : ∀ p ∈ ps, '/' ∉ p)
    (hne : ∀ p ∈ ps, p ≠ []) (hqs : ∀ q ∈ qs, '/' ∉ q)
    (h : ['/'].intercalate ps <+: ['/'].intercalate qs) : ps <+: qs ∨ LongerName ps qs := by
  induction ps generalizing qs with
  | nil => exact .inl List.nil_prefix
  | cons p ps ih =>
    have hp := hps p List.mem_cons_self
    cases qs with
    | nil =>
      -- nothing begins with a name
      have hnil := List.prefix_nil.mp h
      cases ps with
      | nil =>
        rw [List.intercalate_singleton] at hnil
        exact absurd hnil (hne p List.mem_cons_self)
      | cons p' ps =>
        rw [intercalate_cons p (List.cons_ne_nil p' ps)] at hnil
        exact absurd (List.append_eq_nil_iff.mp hnil).2 (List.cons_ne_nil _ _)
    | cons q qs =>
      obtain ⟨t, ht, hq⟩ : ∃ t, (t = [] ∨ t.head? = some '/') ∧
          ['/'].intercalate (q :: qs) = q ++ t := by
        cases qs with
        | nil => exact ⟨[], .inl rfl, by simp⟩
        | cons q' qs => exact ⟨_, .inr rfl, intercalate_cons q (List.cons_ne_nil q' qs)⟩
      by_cases hnil : ps = []
      · subst hnil
        rw [List.intercalate_singleton, hq] at h
        obtain ⟨x, rfl⟩ := prefix_name hp ht h
        by_cases hx : x = []
        · subst hx
          exact .inl ⟨qs, by simp⟩
        · exact .inr ⟨[], p, x, qs, hx, rfl, rfl⟩
      · rw [intercalate_cons p hnil] at h
        obtain ⟨r, hr⟩ := h
        by_cases hqnil : qs = []
        · subst hqnil
          rw [List.intercalate_singleton] at hr
          refine absurd ?_ (hqs q List.mem_cons_self)
          rw [← hr]
          simp
        · rw [intercalate_cons q hqnil, List.append_assoc, List.cons_append] at hr
          have hpq : p <+: q := prefix_name hp (.inr rfl) ⟨_, hr⟩
          have hqp : q <+: p := prefix_name (hqs q List.mem_cons_self) (.inr rfl) ⟨_, hr.symm⟩
          obtain rfl : p = q := hpq.eq_of_length_le hqp.length_le
          have hr : ['/'].intercalate ps ++ r = ['/'].intercalate qs :=
            (List.cons.inj (List.append_cancel_left hr)).2
          rcases ih (fun p hp => hps p (List.mem_cons_of_mem _ hp))
            (fun p hp => hne p (List.mem_cons_of_mem _ hp))
            (fun q hq => hqs q (List.mem_cons_of_mem _ hq)) ⟨r, hr⟩ with h | h
          · exact .inl (List.cons_prefix_cons.mpr ⟨rfl, h⟩)
          · exact .inr (longerName_cons p h)

theorem intercalate_head {ps : List (List Char)} (h : ∀ p ∈ ps, IsPart p) :
    (['/'].intercalate ps).head? ≠ some '/' := by
  intro hhead
  cases ps with
  | nil => cases hhead
  | cons p ps =>
    have hp := h p List.mem_cons_self
    obtain ⟨c, p', rfl⟩ := List.exists_cons_of_ne_nil hp.ne_nil
    have hc : c ≠ '/' := fun hc => hp.noSlash (hc ▸ List.mem_cons_self)
    cases ps with
    | nil =>
      rw [List.intercalate_singleton] at hhead
      exact hc (Option.some.inj hhead)
    | cons q ps =>
      rw [intercalate_cons _ (List.cons_ne_nil q ps)] at hhead
      exact hc (Option.some.inj hhead)

theorem intercalate_ne_nil {ps : List (List Char)} (h : ∀ p ∈ ps, IsPart p) (hne : ps ≠ []) :
    ['/'].intercalate ps ≠ [] := by
  obtain ⟨p, ps, rfl⟩ := List.exists_cons_of_ne_nil hne
  have hp := (h p List.mem_cons_self).ne_nil
  cases ps with
  | nil =>
    rw [List.intercalate_singleton]
    exact hp
  | cons q ps =>
    rw [intercalate_cons _ (List.cons_ne_nil q ps)]
    exact List.append_ne_nil_of_left_ne_nil hp _

/-- A longer name, under the same root. -/
def AbsPath.LongerName (a b : AbsPath) : Prop :=
  a.double = b.double ∧ PosixPath.LongerName a.parts b.parts

/-- One absolute path begins with another one only if it is below it, or has a longer name. -/
theorem parts_prefix_of_chars {a b : AbsPath} (h : a.chars <+: b.chars) :
    a.parts <+: b.parts ∨ a.LongerName b := by
  by_cases hnil : a.parts = []
  · rw [hnil]
    exact .inl List.nil_prefix
  · have hroot : a.double = b.double ∧ ['/'].intercalate a.parts <+: ['/'].intercalate b.parts := by
      have hane := intercalate_ne_nil a.fits hnil
      have hahead := intercalate_head a.fits
      have hbhead := intercalate_head b.fits
      unfold AbsPath.chars at h
      cases ha : a.double with
      | true =>
        cases hb : b.double with
        | true =>
          rw [ha, hb] at h
          exact ⟨rfl, (List.prefix_append_right_inj _).mp h⟩
        | false =>
          rw [ha, hb] at h
          obtain ⟨t, ht⟩ := h
          have hb' : '/' :: (['/'].intercalate a.parts ++ t) = ['/'].intercalate b.parts :=
            (List.cons.inj ht).2
          rw [← hb'] at hbhead
          exact absurd rfl hbhead
      | false =>
        cases hb : b.double with
        | true =>
          rw [ha, hb] at h
          obtain ⟨t, ht⟩ := h
          have ha' : ['/'].intercalate a.parts ++ t = '/' :: ['/'].intercalate b.parts :=
            (List.cons.inj ht).2
          have hhead : (['/'].intercalate a.parts ++ t).head? = (['/'].intercalate a.parts).head? :=
            List.head?_append_of_ne_nil _ hane
          rw [← hhead, ha'] at hahead
          exact absurd rfl hahead
        | false =>
          rw [ha, hb] at h
          exact ⟨rfl, (List.prefix_append_right_inj _).mp h⟩
    rcases prefix_or_longerName (fun p hp => (a.fits p hp).noSlash)
      (fun p hp => (a.fits p hp).ne_nil)
      (fun q hq => (b.fits q hq).noSlash) hroot.2 with h | h
    · exact .inl h
    · exact .inr ⟨hroot.1, h⟩

theorem chars_prefix_of_longerName {a b : AbsPath} (h : a.LongerName b) : a.chars <+: b.chars := by
  unfold AbsPath.chars
  rw [h.1]
  exact (List.prefix_append_right_inj _).mpr (prefix_of_longerName h.2)

/-! ## Names -/

theorem components_slash (p : List Char) : components ('/' :: p) = components p := by
  unfold components
  rw [List.splitOn_cons_eq_if_modifyHead, if_pos (by decide), List.filter_cons_of_neg (by simp)]

theorem components_intercalate {ps : List (List Char)} (h : ∀ p ∈ ps, IsPart p) :
    components (['/'].intercalate ps) = ps := by
  by_cases hnil : ps = []
  · subst hnil
    rfl
  · unfold components
    rw [List.splitOn_intercalate '/' (fun p hp => (h p hp).noSlash) hnil]
    exact List.filter_eq_self.mpr fun p hp => decide_eq_true (h p hp).ne_nil

theorem components_chars (a : AbsPath) : components a.chars = a.parts := by
  unfold AbsPath.chars
  split
  · exact (components_slash _).trans ((components_slash _).trans (components_intercalate a.fits))
  · exact (components_slash _).trans (components_intercalate a.fits)

end Lib.PosixPath
