import Mathlib.Logic.Relation
import DevUtil.Roafteriniter.Cache

/-!
# Struct types

The types that stage 1 of the plugin looks at, and what it looks for in them.

`checkMember` is the body of the loop of `rai_check_interesting_sttype`.
`Interesting` is what that loop is for, a least fixpoint; `Passed` are the names
that a visit of the globals comes to when each answer is the one of `Interesting`.

    Interesting n ↔ not blacklisted, has fields, all of them fine          (interesting_iff)
    Interesting n → no chain of members leads from n back to n             (interesting_acyclic)
-/

namespace Roafteriniter

/-- The name of a struct type. -/
structure Name where
  str : CStr
  nonempty : str.length ≠ 0
deriving DecidableEq

theorem Name.ext {m n : Name} (h : m.str = n.str) : m = n := by
  match m, n, h with
  | ⟨_, _⟩, ⟨_, _⟩, rfl => rfl

/-- The name that a literal spells. -/
def name (s : String) : Name := if h : (lit s).length ≠ 0 then ⟨lit s, h⟩ else ⟨lit "_", by decide⟩

/-- `TYPE_NAME`: nothing, an `IDENTIFIER_NODE`, or a `TYPE_DECL` and its `DECL_NAME`. -/
inductive TypeName
  | null
  | identifierNode (name : Name)
  | typeDecl (declName : Option Name)
deriving DecidableEq

/-- A type, as far as the plugin tells types apart. -/
inductive CType
  | record (typeName : TypeName)
  | pointer (target : CType)
  | other
deriving DecidableEq

/-- `IS_RECORD_TYPE` -/
def CType.isRecord : CType → Bool
  | .record _ => true
  | _ => false

def raiStructtypeStr : CType → Option Name
  | .record .null => none
  | .record (.identifierNode name) => some name
  | .record (.typeDecl declName) => declName
  | _ => none

/-- A struct type with a name, and one without. -/
def struct (s : String) : CType := .record (.identifierNode (name s))

def anonymous : CType := .record .null

/-- The structs that a compiler run has complete definitions of, and its globals. -/
structure TranslationUnit where
  types : List (Name × List CType)
  globals : List CType

/-- The types of the fields of a struct; none if it is only declared. -/
def TranslationUnit.fields (u : TranslationUnit) (n : Name) : List CType :=
  (u.types.lookup n).getD []

def blacklistedTypenames : List Name :=
  ["atomic_t", "atomic64_t", "arch_spinlock_t", "spinlock_t", "cpumask_t", "sk_buff_head"].map name

def raiHardcodedBlacklistTypename (blacklist : List Name) (typeName : Name) : Bool :=
  blacklist.contains typeName

/-! ## The loop over the members -/

/-- What the loop does at a member. -/
inductive Member
  /-- go on to the next one -/
  | skip
  /-- `return false` -/
  | bad
  /-- call `rai_interesting_struct_type` on it -/
  | ask (n : Name)
deriving DecidableEq

def checkMember (typeName : Name) : CType → Member
  | .pointer memberType =>
    if !memberType.isRecord then .skip
    else
      match raiStructtypeStr memberType with
      | none => .skip
      | some memberTypename => if memberTypename = typeName then .bad else .ask memberTypename
  | .record t =>
    match raiStructtypeStr (.record t) with
    | none => .bad
    | some memberTypename => .ask memberTypename
  | .other => .skip

/-! ## What is looked for -/

section

variable (blacklist : List Name) (fields : Name → List CType)

/-- Named, not blacklisted, with at least one field, every direct record member interesting and
every pointer to a named record pointing to an interesting type. -/
inductive Interesting : Name → Prop
  | intro {n : Name} : n ∉ blacklist → fields n ≠ [] →
      (∀ t ∈ fields n, t.isRecord = true → raiStructtypeStr t ≠ none) →
      (∀ t ∈ fields n, t.isRecord = true → ∀ m, raiStructtypeStr t = some m → Interesting m) →
      (∀ t, .pointer t ∈ fields n → t.isRecord = true →
        ∀ m, raiStructtypeStr t = some m → Interesting m) →
      Interesting n

/-- The loop goes past a member. -/
def Fine (n : Name) (t : CType) : Prop :=
  checkMember n t = .skip ∨ ∃ m, checkMember n t = .ask m ∧ Interesting blacklist fields m

/-- The loop over the members of `n` comes to a member that it asks about as `m`. -/
def Scans (n m : Name) : Prop :=
  n ∉ blacklist ∧ ∃ pre t post, fields n = pre ++ t :: post ∧
    (∀ s ∈ pre, Fine blacklist fields n s) ∧
    checkMember n t = .ask m

/-- The names passed to `rai_interesting_struct_type`, from the globals on. -/
inductive Passed (globals : List CType) : Name → Prop
  | global {t : CType} {n : Name} : t ∈ globals → raiStructtypeStr t = some n → Passed globals n
  | member {n m : Name} : Passed globals n → Scans blacklist fields n m → Passed globals m

end

section

variable {blacklist : List Name} {fields : Name → List CType}

theorem isRecord_of_name {t : CType} {n : Name} (h : raiStructtypeStr t = some n) :
    t.isRecord = true := by
  match t with
  | .record _ => rfl

/-- `n` has `m` among its direct members or the targets of its pointers. -/
def Needs (fields : Name → List CType) (n m : Name) : Prop :=
  ∃ t, raiStructtypeStr t = some m ∧ (t ∈ fields n ∨ .pointer t ∈ fields n)

theorem Interesting.notBlacklisted {n : Name} (h : Interesting blacklist fields n) :
    n ∉ blacklist := by
  cases h; assumption

theorem Interesting.hasFields {n : Name} (h : Interesting blacklist fields n) : fields n ≠ [] := by
  cases h; assumption

theorem Interesting.needs {n m : Name} (h : Interesting blacklist fields n)
    (hm : Needs fields n m) :
    Interesting blacklist fields m := by
  obtain ⟨t, hname, hmem⟩ := hm
  cases h with
  | intro _ _ _ hdirect hptr =>
    rcases hmem with hmem | hmem
    · exact hdirect t hmem (isRecord_of_name hname) m hname
    · exact hptr t hmem (isRecord_of_name hname) m hname

theorem Interesting.acc {n : Name} (h : Interesting blacklist fields n) :
    Acc (fun m k => Needs fields k m) n := by
  induction h with
  | intro _ _ _ _ _ ihdirect ihptr =>
    refine ⟨_, fun m hm => ?_⟩
    obtain ⟨t, hname, hmem⟩ := hm
    rcases hmem with hmem | hmem
    · exact ihdirect t hmem (isRecord_of_name hname) m hname
    · exact ihptr t hmem (isRecord_of_name hname) m hname

/-- A chain of members never leads back to an interesting type. -/
theorem interesting_acyclic {n : Name} (h : Interesting blacklist fields n) :
    ¬Relation.TransGen (Needs fields) n n := by
  intro hcycle
  have hswap : Relation.TransGen (fun m k => Needs fields k m) n n :=
    Relation.transGen_swap.mpr hcycle
  have hacc := h.acc.transGen
  induction hacc with
  | intro n _ ih => exact ih n hswap h hcycle hswap

theorem checkMember_skip {n : Name} {t : CType} (h : checkMember n t = .skip) :
    t = .other ∨ ∃ r, t = .pointer r ∧ (r.isRecord = false ∨ raiStructtypeStr r = none) := by
  match t with
  | .pointer r =>
    refine .inr ⟨r, rfl, ?_⟩
    simp only [checkMember] at h
    split at h
    · next hrec => exact .inl (by simpa using hrec)
    · split at h
      · next hname => exact .inr hname
      · split at h <;> cases h
  | .record r =>
    simp only [checkMember] at h
    split at h <;> cases h
  | .other => exact .inl rfl

theorem checkMember_bad {n : Name} {t : CType} (h : checkMember n t = .bad) :
    (t.isRecord = true ∧ raiStructtypeStr t = none) ∨
      ∃ r, t = .pointer r ∧ raiStructtypeStr r = some n := by
  match t with
  | .pointer r =>
    refine .inr ⟨r, rfl, ?_⟩
    simp only [checkMember] at h
    split at h
    · cases h
    · split at h
      · cases h
      · next hname =>
        split at h
        · next heq => exact heq ▸ hname
        · cases h
  | .record r =>
    refine .inl ⟨rfl, ?_⟩
    simp only [checkMember] at h
    split at h
    · next hname => exact hname
    · cases h
  | .other => cases h

theorem checkMember_ask {n m : Name} {t : CType} (h : checkMember n t = .ask m) :
    raiStructtypeStr t = some m ∨ ∃ r, t = .pointer r ∧ raiStructtypeStr r = some m := by
  match t with
  | .pointer r =>
    refine .inr ⟨r, rfl, ?_⟩
    simp only [checkMember] at h
    split at h
    · cases h
    · split at h
      · cases h
      · next hname =>
        split at h
        · cases h
        · cases h
          exact hname
  | .record r =>
    refine .inl ?_
    simp only [checkMember] at h
    split at h
    · cases h
    · next hname =>
      cases h
      exact hname
  | .other => cases h

theorem needs_of_ask {n m : Name} {t : CType} (ht : t ∈ fields n) (h : checkMember n t = .ask m) :
    Needs fields n m := by
  rcases checkMember_ask h with hname | ⟨r, rfl, hname⟩
  · exact ⟨t, hname, .inl ht⟩
  · exact ⟨r, hname, .inr ht⟩

theorem Interesting.fine {n : Name} {t : CType} (h : Interesting blacklist fields n)
    (ht : t ∈ fields n) :
    Fine blacklist fields n t := by
  match hc : checkMember n t with
  | .skip => exact .inl hc
  | .ask m => exact .inr ⟨m, hc, h.needs (needs_of_ask ht hc)⟩
  | .bad =>
    rcases checkMember_bad hc with ⟨hrec, hname⟩ | ⟨r, rfl, hname⟩
    · cases h with
      | intro _ _ hnamed _ _ => exact absurd hname (hnamed t ht hrec)
    · have hself : Needs fields n n := ⟨r, hname, .inr ht⟩
      exact absurd (.single hself) (interesting_acyclic h)

/-- The loop ends with `true` exactly at the interesting types. -/
theorem interesting_iff {n : Name} : Interesting blacklist fields n ↔
    n ∉ blacklist ∧ fields n ≠ [] ∧ ∀ t ∈ fields n, Fine blacklist fields n t := by
  constructor
  · exact fun h => ⟨h.notBlacklisted, h.hasFields, fun t ht => h.fine ht⟩
  · rintro ⟨hblack, hfields, hfine⟩
    refine .intro hblack hfields ?_ ?_ ?_
    · intro t ht hrec hname
      rcases hfine t ht with hskip | ⟨m, hask, -⟩
      · rcases checkMember_skip hskip with rfl | ⟨r, rfl, -⟩ <;> cases hrec
      · rcases checkMember_ask hask with h | ⟨r, rfl, -⟩
        · rw [hname] at h
          cases h
        · cases hrec
    · intro t ht hrec m hname
      rcases hfine t ht with hskip | ⟨m', hask, hm'⟩
      · rcases checkMember_skip hskip with rfl | ⟨r, rfl, -⟩ <;> cases hrec
      · rcases checkMember_ask hask with h | ⟨r, rfl, -⟩
        · rw [hname] at h
          cases h
          exact hm'
        · cases hrec
    · intro t ht hrec m hname
      rcases hfine _ ht with hskip | ⟨m', hask, hm'⟩
      · rcases checkMember_skip hskip with h | ⟨r, h, hr⟩
        · cases h
        · cases h
          rcases hr with hr | hr
          · rw [hrec] at hr
            cases hr
          · rw [hname] at hr
            cases hr
      · rcases checkMember_ask hask with h | ⟨r, h, hr⟩
        · cases h
        · cases h
          rw [hname] at hr
          cases hr
          exact hm'

end

end Roafteriniter
