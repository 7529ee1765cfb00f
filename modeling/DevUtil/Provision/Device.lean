import DevUtil.Lib.Guarantee
import DevUtil.Provision.QuickProvision
import Mathlib.Logic.Function.Basic

/-!
# A device under provisioning

Attempts may be cut off anywhere, and the device may restart. Between `postinst` and the recording
the new system is the next to boot, and nothing keeps another attempt from writing over it.

    outside this window an attempt never harms what boots next    (attempt_safe_iff)
    a life of the device whose attempts all begin outside it      (life_safe)
    what an attempt leaves that ends well                         (attempt_ok)
-/

namespace Provision

open Lib Prog

/-! ## Partitions -/

inductive Slot
  | a
  | b
deriving DecidableEq

def Slot.other : Slot → Slot
  | a => b
  | b => a

theorem Slot.other_ne (s : Slot) : s.other ≠ s := by cases s <;> decide

theorem Slot.eq_other_of_ne {s t : Slot} (h : s ≠ t) : s = t.other := by
  cases s <;> cases t <;> first | rfl | exact absurd rfl h

/-- A disk with two systems, and how its partitions are named. -/
structure Machine extends Gpt where
  disk : Text
  delim : Text
  distinct : [kernA, kernB, rootA, rootB].Nodup
  number : ∀ num ∈ [rootA, rootB], getPartitionNumber (disk ++ delim ++ num) = num

def Machine.kern (m : Machine) : Slot → Text
  | .a => m.disk ++ m.delim ++ m.kernA
  | .b => m.disk ++ m.delim ++ m.kernB

def Machine.root (m : Machine) : Slot → Text
  | .a => m.disk ++ m.delim ++ m.rootA
  | .b => m.disk ++ m.delim ++ m.rootB

section Names

variable (m : Machine) (s t : Slot)

theorem distinct_cases : m.kernA ≠ m.kernB ∧ m.kernA ≠ m.rootA ∧ m.kernA ≠ m.rootB ∧
    m.kernB ≠ m.rootA ∧
    m.kernB ≠ m.rootB ∧ m.rootA ≠ m.rootB := by
  have h := m.distinct
  simp only [List.nodup_cons, List.mem_cons, List.not_mem_nil, or_false, not_or] at h
  exact ⟨h.1.1, h.1.2.1, h.1.2.2, h.2.1.1, h.2.1.2, h.2.2.1⟩

theorem kern_ne_root : m.kern s ≠ m.root t := by
  obtain ⟨-, h₁, h₂, h₃, h₄, -⟩ := distinct_cases m
  intro h
  cases s <;> cases t <;> simp_all [Machine.kern, Machine.root]

theorem kern_other_ne : m.kern s ≠ m.kern s.other := by
  obtain ⟨h₁, -⟩ := distinct_cases m
  intro h
  cases s <;> simp_all [Machine.kern, Slot.other]

theorem root_injective {s t : Slot} (h : m.root s = m.root t) : s = t := by
  obtain ⟨-, -, -, -, -, h₆⟩ := distinct_cases m
  cases s <;> cases t <;> simp_all [Machine.root]

theorem dropStart_append (p s : Text) : dropStart (p ++ s) p = s := by
  unfold dropStart
  rw [if_pos (List.isPrefixOf_iff_prefix.mpr (List.prefix_append p s)), List.drop_left]

theorem dropEnd_append (s p : Text) : dropEnd (s ++ p) p = s := by
  unfold dropEnd
  rw [if_pos (List.isSuffixOf_iff_suffix.mpr (List.suffix_append s p))]
  simp

theorem nextPartitions_root : nextPartitions m.toGpt (m.root s) m.disk =
    some (m.kern s.other, m.root s.other) := by
  have hne := (distinct_cases m).2.2.2.2.2
  unfold nextPartitions
  cases s with
  | a =>
    have hnumber := m.number m.rootA (by simp)
    rw [Machine.root, hnumber, List.append_assoc, dropStart_append]
    dsimp only
    rw [dropEnd_append]
    exact if_pos rfl
  | b =>
    have hnumber := m.number m.rootB (by simp)
    rw [Machine.root, hnumber, List.append_assoc, dropStart_append]
    dsimp only
    rw [dropEnd_append, if_neg hne.symm]
    exact if_pos rfl

end Names

/-! ## Devices -/

inductive Content
  /-- what a URL of the devserver holds -/
  | image (url : Text)
  /-- what the device came with -/
  | factory (s : Slot)
  | broken

/-- A path of stateful. -/
inductive Entry
  | absent
  | file (text : Text)
  | tree (url : Text)
  | broken

structure Device where
  parts : Text → Content
  stateful : Text → Entry
  /-- the slot that it has booted from -/
  active : Slot
  /-- the slot to boot next -/
  next : Slot
  completed : Option Text
  rebootDue : Bool

def Device.setPart (d : Device) (part : Text) (x : Content) : Device :=
  { d with parts := Function.update d.parts part x }

/-- `/tmp` is empty after a boot. -/
def Device.boot (d : Device) : Device :=
  { d with active := d.next, completed := none, rebootDue := false }

/-- What an operation may answer and do; one that fails, or is cut off, leaves anything in the place
that it writes. -/
def sem (m : Machine) : Sem Op Device
  | _, .completedFile, d, content, d' => content = d.completed ∧ d' = d
  | _, .rootdev, d, part, d' => part = m.root d.active ∧ d' = d
  | _, .rootDisk, d, disk, d' => disk = m.disk ∧ d' = d
  | _, .stop _, d, _, d' => d' = d
  | _, .postStatus _, d, _, d' => d' = d
  | _, .writePartition url part, d, statuses, d' =>
    ∃ x, (statuses = (0, 0, 0) → x = .image url) ∧ d' = d.setPart part x
  | _, .rm name, d, done, d' =>
    ∃ x, (done = true → x = .absent) ∧ d' = { d with stateful := Function.update d.stateful name x }
  -- an archive of stateful holds these two and nothing else
  | _, .untar url, d, statuses, d' =>
    ∃ x y, (statuses = (0, 0) → x = .tree url ∧ y = .tree url) ∧
      d' =
        { d with stateful := Function.update (Function.update d.stateful varNew x) devImageNew y }
  | _, .markUpdate text, d, done, d' =>
    ∃ x, (done = true → x = .file text) ∧
      d' = { d with stateful := Function.update d.stateful updateStateFile x }
  | _, .mount _, d, _, d' => d' = d
  | _, .postinst part, d, retval, d' =>
    (retval ≠ 0 ∧ d' = d) ∨ ∃ s, part = m.root s ∧ d' = { d with next := s }
  | _, .umount, d, _, d' => d' = d
  | _, .complete build, d, _, d' =>
    d' = d ∨ ∃ text, text <+: echo build ∧ d' = { d with completed := some text }
  | _, .reboot, d, _, d' => d' = { d with rebootDue := true }

/-! ## What an attempt leaves -/

section

variable (m : Machine) (build staticUrl : Text) (d₀ d : Device)

/-- The images of the build are on the other slot. -/
structure Written : Prop where
  kern : d.parts (m.kern d₀.active.other) = .image (imageUrl staticUrl build kernImage)
  root : d.parts (m.root d₀.active.other) = .image (imageUrl staticUrl build rootImage)

/-- The archive of the build is unpacked, and will be put in place at the next boot. -/
structure Staged : Prop where
  marker : d.stateful updateStateFile = .file "clobber".toList
  var : d.stateful varNew = .tree (imageUrl staticUrl build statefulTgz)
  devImage : d.stateful devImageNew = .tree (imageUrl staticUrl build statefulTgz)

/-- Only the other slot and stateful are written. -/
structure Frame : Prop where
  active : d.active = d₀.active
  parts : ∀ part, part ≠ m.kern d₀.active.other → part ≠ m.root d₀.active.other →
    d.parts part = d₀.parts part
  stateful : ∀ name, name ≠ updateStateFile → name ≠ varNew → name ≠ devImageNew →
    d.stateful name = d₀.stateful name

/-- What holds of the device on every way of an attempt. -/
structure Along : Prop extends Frame m d₀ d where
  next : d.next = d₀.next ∨ d.next = d₀.active.other ∧ Written m build staticUrl d₀ d
  completed : d.completed = d₀.completed ∨ d₀.completed = none ∧
    (∃ text, text <+: echo build ∧ d.completed = some text) ∧
    d.next = d₀.active.other ∧ Written m build staticUrl d₀ d ∧ Staged build staticUrl d
  started : d₀.completed ≠ none → d = d₀

/-- Before `postinst`. -/
structure Early : Prop extends Frame m d₀ d where
  next : d.next = d₀.next
  completed : d.completed = none
  rebootDue : d.rebootDue = d₀.rebootDue

end

variable {m : Machine} {build staticUrl : Text} {d₀ d d' : Device}

theorem Early.along (h : Early m d₀ d) (h₀ : d₀.completed = none) : Along m build staticUrl d₀ d :=
  ⟨h.toFrame, .inl h.next, .inl (h.completed.trans h₀.symm), fun hne => absurd h₀ hne⟩

theorem does_die {α : Type} {R : α → Device → Prop} (line : Text)
    (h : Along m build staticUrl d₀ d) :
    Does (sem m) (Along m build staticUrl) d₀ R (die line) d := by
  refine does_op fun _ d' ho => ?_
  obtain rfl : d' = d := ho
  exact ⟨h, does_raise h _⟩

/-- What leaves the device as it is. -/
theorem does_plain {o : Op Unit} (ho : ∀ d b d', sem m o d b d' → d' = d)
    (h : Along m build staticUrl d₀ d) :
    Does (sem m) (Along m build staticUrl) d₀ (fun _ d' => d' = d) (perform o : P Unit) d := by
  refine does_perform fun b d' hd => ?_
  obtain rfl := ho d b d' hd
  exact ⟨h, rfl⟩

theorem Early.setPart (h : Early m d₀ d) {part : Text}
    (hpart : part = m.kern d₀.active.other ∨ part = m.root d₀.active.other) (x : Content) :
    Early m d₀ (d.setPart part x) := by
  refine ⟨⟨h.active, fun p hkern hroot => ?_, h.stateful⟩, h.next, h.completed, h.rebootDue⟩
  have hne : p ≠ part := by
    rcases hpart with rfl | rfl
    · exact hkern
    · exact hroot
  exact (Function.update_of_ne hne _ _).trans (h.parts p hkern hroot)

theorem does_updatePartition {url part : Text} (h : Early m d₀ d) (h₀ : d₀.completed = none)
    (hpart : part = m.kern d₀.active.other ∨ part = m.root d₀.active.other) :
    Does (sem m) (Along m build staticUrl) d₀ (fun _ d' => d' = d.setPart part (.image url))
      (updatePartition url part) d := by
  refine does_op fun statuses d' ho => ?_
  obtain ⟨x, hx, rfl⟩ := ho
  obtain ⟨got, unzipped, wrote⟩ := statuses
  have halong : Along m build staticUrl d₀ (d.setPart part x) := (h.setPart hpart x).along h₀
  refine ⟨halong, ?_⟩
  show Does _ _ _ _ (ite _ _ _) _
  split
  · exact does_die _ halong
  split
  · exact does_die _ halong
  split
  · exact does_die _ halong
  · next hgot hunzipped hwrote =>
    rw [not_not] at hgot hunzipped hwrote
    subst hgot hunzipped hwrote
    exact does_ret halong (by rw [hx rfl])

/-- Only what the script writes of stateful is other than it was. -/
structure Stirred (d d' : Device) : Prop where
  others : ∀ name, name ≠ updateStateFile → name ≠ varNew → name ≠ devImageNew →
    d'.stateful name = d.stateful name
  rest : d' = { d with stateful := d'.stateful }

theorem Stirred.trans {d₁ d₂ d₃ : Device} (h : Stirred d₁ d₂) (h' : Stirred d₂ d₃) :
    Stirred d₁ d₃ where
  others := fun name h₁ h₂ h₃ => (h'.others name h₁ h₂ h₃).trans (h.others name h₁ h₂ h₃)
  rest := by rw [h'.rest, h.rest]

theorem Early.stirred (h : Early m d₀ d) (hs : Stirred d d') : Early m d₀ d' := by
  obtain ⟨hothers, hrest⟩ := hs
  rw [hrest]
  refine ⟨⟨h.active, h.parts, fun name h₁ h₂ h₃ => ?_⟩, h.next, h.completed, h.rebootDue⟩
  exact (hothers name h₁ h₂ h₃).trans (h.stateful name h₁ h₂ h₃)

theorem stirred_update (name : Text) (hname : name ∈ [updateStateFile, varNew, devImageNew])
    (x : Entry) :
    Stirred d { d with stateful := Function.update d.stateful name x } := by
  refine ⟨fun name' h₁ h₂ h₃ => Function.update_of_ne ?_ _ _, rfl⟩
  rintro rfl
  simp [h₁, h₂, h₃] at hname

theorem does_removeAll {names : List Text} (h : Early m d₀ d) (h₀ : d₀.completed = none)
    (hnames : names ⊆ [updateStateFile, varNew, devImageNew]) :
    Does (sem m) (Along m build staticUrl) d₀ (fun _ d' => Stirred d d') (removeAll names) d := by
  induction names generalizing d with
  | nil => exact does_ret (h.along h₀) ⟨fun _ _ _ _ => rfl, rfl⟩
  | cons name names ih =>
    obtain ⟨hname, hnames⟩ := List.cons_subset.mp hnames
    refine does_op fun done d₁ ho => ?_
    obtain ⟨x, -, rfl⟩ := ho
    have hstirred := stirred_update (d := d) name hname x
    have hearly := h.stirred hstirred
    refine ⟨hearly.along h₀, ?_⟩
    show Does _ _ _ _ (removeAll names >>= _) _
    refine does_bind (ih hearly hnames) ?_
    intro rest d₂ hv₂ hstirred'
    exact does_ret hv₂ (hstirred.trans hstirred')

theorem staged_of_update {stateful : Text → Entry} (h : d.stateful = Function.update
    (Function.update
      (Function.update stateful varNew (.tree (imageUrl staticUrl build statefulTgz))) devImageNew
      (.tree (imageUrl staticUrl build statefulTgz))) updateStateFile (.file "clobber".toList)) :
        Staged build staticUrl d := by
  have hvar : varNew ≠ updateStateFile := by decide
  have hdev : devImageNew ≠ updateStateFile := by decide
  have hboth : varNew ≠ devImageNew := by decide
  constructor
  · rw [h, Function.update_self]
  · rw [h, Function.update_of_ne hvar, Function.update_of_ne hboth, Function.update_self]
  · rw [h, Function.update_of_ne hdev, Function.update_self]

theorem does_statefulUpdate (h : Early m d₀ d) (h₀ : d₀.completed = none) :
    Does (sem m) (Along m build staticUrl) d₀ (fun _ d' => Stirred d d' ∧ Staged build staticUrl d')
      (statefulUpdate (imageUrl staticUrl build statefulTgz)) d := by
  have hplain : ∀ d', Early m d₀ d' →
    ∀ status, Does (sem m) (Along m build staticUrl) d₀ (fun _ d'' => d'' = d')
      (perform (.postStatus status)) d' :=
        fun d' h status => does_plain (fun _ _ _ h => h) (h.along h₀)
  unfold statefulUpdate
  refine does_bind (hplain d h _) ?_
  rintro _ d₁ hv rfl
  refine does_bind (does_removeAll h h₀ (by simp)) ?_
  intro removed d₁ hv₁ hstirred₁
  have h₁ := h.stirred hstirred₁
  split
  · refine does_bind (hplain d₁ h₁ _) ?_
    rintro _ d₂ - hd
    obtain rfl : d₁ = d₂ := hd.symm
    refine does_op fun statuses d₂ ho => ?_
    obtain ⟨x, y, hxy, rfl⟩ := ho
    obtain ⟨got, untarred⟩ := statuses
    have hstirred₂ := hstirred₁.trans ((stirred_update varNew (by simp) x).trans
      (stirred_update devImageNew (by simp) y))
    have h₂ := h.stirred hstirred₂
    refine ⟨h₂.along h₀, ?_⟩
    show Does _ _ _ _ (ite _ _ _) _
    split
    · exact does_die _ (h₂.along h₀)
    split
    · exact does_die _ (h₂.along h₀)
    next hgot huntarred =>
    rw [not_not] at hgot huntarred
    subst hgot huntarred
    obtain ⟨rfl, rfl⟩ := hxy rfl
    refine does_bind (hplain _ h₂ _) ?_
    rintro _ d₃ - rfl
    refine does_op fun done d₄ ho => ?_
    obtain ⟨z, hz, rfl⟩ := ho
    have hstirred₃ := hstirred₂.trans (stirred_update updateStateFile (by simp) z)
    have h₃ := h.stirred hstirred₃
    refine ⟨h₃.along h₀, ?_⟩
    cases done with
    | false => exact does_die _ (h₃.along h₀)
    | true =>
      obtain rfl := hz rfl
      exact does_ret (h₃.along h₀) ⟨hstirred₃, staged_of_update rfl⟩
  · exact does_die _ hv₁

/-! ## An attempt -/

/-- After `postinst`. -/
structure Late (m : Machine) (build staticUrl : Text) (d₀ d : Device) :
    Prop extends Frame m d₀ d where
  next : d.next = d₀.active.other
  written : Written m build staticUrl d₀ d
  staged : Staged build staticUrl d
  completed : d.completed = none ∨ ∃ text, text <+: echo build ∧ d.completed = some text
  rebootDue : d.rebootDue = d₀.rebootDue

theorem Late.along (h : Late m build staticUrl d₀ d) (h₀ : d₀.completed = none) :
    Along m build staticUrl d₀ d := by
  refine ⟨h.toFrame, .inr ⟨h.next, h.written⟩, ?_, fun hne => absurd h₀ hne⟩
  rcases h.completed with hnone | htext
  · exact .inl (hnone.trans h₀.symm)
  · exact .inr ⟨h₀, htext, h.next, h.written, h.staged⟩

theorem Early.late (h : Early m d₀ d) (hwritten : Written m build staticUrl d₀ d)
    (hstaged : Staged build staticUrl d) :
    Late m build staticUrl d₀ { d with next := d₀.active.other } where
  active := h.active
  parts := h.parts
  stateful := h.stateful
  next := rfl
  written := ⟨hwritten.kern, hwritten.root⟩
  staged := ⟨hstaged.marker, hstaged.var, hstaged.devImage⟩
  completed := .inl h.completed
  rebootDue := h.rebootDue

theorem does_setNextKernel (h : Early m d₀ d) (h₀ : d₀.completed = none)
    (hwritten : Written m build staticUrl d₀ d) (hstaged : Staged build staticUrl d) :
    Does (sem m) (Along m build staticUrl) d₀ (fun _ d' => Late m build staticUrl d₀ d')
      (setNextKernel (m.root d₀.active.other)) d := by
  refine does_op fun mounted d₁ ho => ?_
  obtain rfl : d = d₁ := ho.symm
  refine ⟨h.along h₀, ?_⟩
  cases mounted with
  | false => exact does_die _ (h.along h₀)
  | true =>
    refine does_op fun retval d₁ ho => ?_
    have hafter : d₁ = d ∧ retval ≠ 0 ∨ Late m build staticUrl d₀ d₁ := by
      rcases ho with ⟨hretval, rfl⟩ | ⟨s, hs, rfl⟩
      · exact .inl ⟨rfl, hretval⟩
      · obtain rfl := root_injective m hs
        exact .inr (h.late hwritten hstaged)
    have hv₁ : Along m build staticUrl d₀ d₁ := by
      rcases hafter with ⟨rfl, -⟩ | hlate
      · exact h.along h₀
      · exact hlate.along h₀
    refine ⟨hv₁, does_op fun _ d₂ ho => ?_⟩
    obtain rfl : d₁ = d₂ := ho.symm
    refine ⟨hv₁, ?_⟩
    show Does _ _ _ _ (ite _ _ _) _
    split
    · exact does_die _ hv₁
    · next hretval =>
      rcases hafter with ⟨-, hne⟩ | hlate
      · exact absurd hne hretval
      · exact does_ret hv₁ hlate

theorem does_update (h₀ : d₀.completed = none) :
    Does (sem m) (Along m build staticUrl) d₀ (fun _ d' => Late m build staticUrl d₀ d')
      (update build staticUrl (m.kern d₀.active.other) (m.root d₀.active.other)) d₀ := by
  have h : Early m d₀ d₀ := ⟨⟨rfl, fun _ _ _ => rfl, fun _ _ _ _ => rfl⟩, rfl, h₀, rfl⟩
  unfold update
  refine does_bind (does_plain (fun _ _ _ h => h) (h.along h₀)) ?_
  rintro _ d₁ hv rfl
  refine does_bind (does_plain (fun _ _ _ h => h) hv) ?_
  rintro _ _ - rfl
  refine does_bind (does_plain (fun _ _ _ h => h) hv) ?_
  rintro _ _ - rfl
  refine does_bind (does_updatePartition h h₀ (.inl rfl)) ?_
  rintro _ d₁ hv₁ rfl
  have h₁ := h.setPart (.inl rfl) (.image (imageUrl staticUrl build kernImage))
  refine does_bind (does_plain (fun _ _ _ h => h) hv₁) ?_
  rintro _ _ - rfl
  refine does_bind (does_updatePartition h₁ h₀ (.inr rfl)) ?_
  rintro _ d₂ hv₂ rfl
  have h₂ := h₁.setPart (.inr rfl) (.image (imageUrl staticUrl build rootImage))
  refine does_bind (does_statefulUpdate h₂ h₀) ?_
  rintro _ d₃ hv₃ ⟨hstirred, hstaged⟩
  refine does_setNextKernel (h₂.stirred hstirred) h₀ ?_ hstaged
  rw [hstirred.rest]
  constructor
  · exact (Function.update_of_ne (kern_ne_root m _ _) _ _).trans (Function.update_self ..)
  · exact Function.update_self ..

/-- What an attempt leaves that ends well. -/
structure Ended (m : Machine) (flagsReboot : Bool) (build staticUrl : Text) (d₀ d : Device) :
    Prop extends Frame m d₀ d where
  next : d.next = d₀.active.other
  written : Written m build staticUrl d₀ d
  staged : Staged build staticUrl d
  rebootDue : d.rebootDue = (flagsReboot || d₀.rebootDue)

theorem does_provisionDevice (flagsReboot : Bool) :
    Does (sem m) (Along m build staticUrl) d₀
      (fun _ d => d₀.completed = some (echo build) ∧ d = d₀ ∨
        d₀.completed = none ∧ Ended m flagsReboot build staticUrl d₀ d)
      (provisionDevice m.toGpt flagsReboot build staticUrl) d₀ := by
  have hv₀ : Along m build staticUrl d₀ d₀ :=
    ⟨⟨rfl, fun _ _ _ => rfl, fun _ _ _ _ => rfl⟩, .inl rfl, .inl rfl, fun _ => rfl⟩
  refine does_op fun content d₁ ho => ?_
  obtain ⟨rfl, hd⟩ := ho
  obtain rfl : d₀ = d₁ := hd.symm
  refine ⟨hv₀, ?_⟩
  cases h₀ : d₀.completed with
  | some content =>
    show Does _ _ _ _ (ite _ _ _) _
    split
    · next hsame => exact does_ret hv₀ (.inl ⟨by rw [hsame], rfl⟩)
    · exact does_die _ hv₀
  | none =>
    refine does_op fun currentRoot d₁ ho => ?_
    obtain ⟨rfl, hd⟩ := ho
    obtain rfl : d₀ = d₁ := hd.symm
    refine ⟨hv₀, does_op fun rootDisk d₁ ho => ?_⟩
    obtain ⟨rfl, hd⟩ := ho
    obtain rfl : d₀ = d₁ := hd.symm
    refine ⟨hv₀, ?_⟩
    rw [Prog.bind, nextPartitions_root]
    refine does_bind (does_update h₀) ?_
    intro _ d₁ hv₁ hlate
    refine does_bind (R := fun _ d' => Late m build staticUrl d₀ d') ?_ ?_
    · refine does_perform fun _ d₂ ho => ?_
      have hlate₂ : Late m build staticUrl d₀ d₂ := by
        rcases ho with rfl | ⟨text, htext, rfl⟩
        · exact hlate
        · exact ⟨⟨hlate.active, hlate.parts, hlate.stateful⟩, hlate.next,
            ⟨hlate.written.kern, hlate.written.root⟩,
            ⟨hlate.staged.marker, hlate.staged.var, hlate.staged.devImage⟩, .inr ⟨text, htext, rfl⟩,
              hlate.rebootDue⟩
      exact ⟨hlate₂.along h₀, hlate₂⟩
    · intro _ d₂ hv₂ hlate₂
      cases flagsReboot with
      | false =>
        exact does_ret hv₂
          (.inr ⟨rfl, hlate₂.toFrame, hlate₂.next, hlate₂.written, hlate₂.staged, hlate₂.rebootDue⟩)
      | true =>
        refine does_bind (does_plain (fun _ _ _ h => h) hv₂) ?_
        rintro _ _ - rfl
        refine does_perform fun _ d₃ ho => ?_
        obtain rfl : d₃ = _ := ho
        refine ⟨⟨⟨hv₂.active, hv₂.parts, hv₂.stateful⟩, ?_, ?_, fun hne => absurd h₀ hne⟩,
          .inr ⟨rfl, ?_⟩⟩
        · exact .inr ⟨hlate₂.next, hlate₂.written.kern, hlate₂.written.root⟩
        · rcases hlate₂.completed with hnone | htext
          · exact .inl (hnone.trans h₀.symm)
          · exact .inr ⟨h₀, htext, hlate₂.next, ⟨hlate₂.written.kern, hlate₂.written.root⟩,
              hlate₂.staged.marker, hlate₂.staged.var, hlate₂.staged.devImage⟩
        · exact ⟨⟨hlate₂.active, hlate₂.parts, hlate₂.stateful⟩, hlate₂.next,
            ⟨hlate₂.written.kern, hlate₂.written.root⟩,
            ⟨hlate₂.staged.marker, hlate₂.staged.var, hlate₂.staged.devImage⟩, rfl⟩

/-! ## Whole systems -/

/-- A kernel and a root file system that belong together. -/
inductive Sound : Content → Content → Prop
  | factory (s : Slot) : Sound (.factory s) (.factory s)
  | build (staticUrl build : Text) :
      Sound (.image (imageUrl staticUrl build kernImage))
        (.image (imageUrl staticUrl build rootImage))

def Device.Whole (m : Machine) (d : Device) (s : Slot) : Prop :=
  Sound (d.parts (m.kern s)) (d.parts (m.root s))

/-- Another system boots next, and no attempt has recorded that it is done. -/
def Device.Window (d : Device) : Prop := d.next ≠ d.active ∧ d.completed = none

structure Inv (m : Machine) (d : Device) : Prop where
  active : d.Whole m d.active
  next : d.Whole m d.next
  recorded : ∀ text, d.completed = some text → d.next = d.active.other ∧
    ∃ build staticUrl, text <+: echo build ∧ Written m build staticUrl d d ∧
      Staged build staticUrl d

theorem Written.whole (h : Written m build staticUrl d₀ d) : d.Whole m d₀.active.other := by
  unfold Device.Whole
  rw [h.kern, h.root]
  exact .build staticUrl build

theorem Frame.whole (h : Frame m d₀ d) (hwhole : d₀.Whole m d₀.active) : d.Whole m d₀.active := by
  unfold Device.Whole
  rw [h.parts _ (kern_other_ne m _) (kern_ne_root m _ _), h.parts _ (kern_ne_root m _ _).symm
    fun hroot => Slot.other_ne _ (root_injective m hroot).symm]
  exact hwhole

theorem Along.inv (h : Along m build staticUrl d₀ d) (hinv : Inv m d₀) (hwindow : ¬d₀.Window) :
    Inv m d := by
  by_cases h₀ : d₀.completed = none
  · have hnext₀ : d₀.next = d₀.active := by
      by_contra hne
      exact hwindow ⟨hne, h₀⟩
    have hactive := h.toFrame.whole hinv.active
    refine ⟨by rwa [h.active], ?_, fun text htext => ?_⟩
    · rcases h.next with hnext | ⟨hnext, hwritten⟩
      · rwa [hnext, hnext₀]
      · rw [hnext]
        exact hwritten.whole
    · rcases h.completed with hsame | ⟨-, ⟨text', htext', hcompleted⟩, hnext, hwritten, hstaged⟩
      · rw [hsame, h₀] at htext
        cases htext
      · rw [hcompleted] at htext
        cases htext
        rw [h.active]
        exact ⟨hnext, build, staticUrl, htext',
          ⟨by rw [h.active, hwritten.kern], by rw [h.active, hwritten.root]⟩, hstaged⟩
  · rw [h.started h₀]
    exact hinv

theorem Inv.boot (h : Inv m d) : Inv m d.boot := ⟨h.next, h.next, fun text htext => by cases htext⟩

/-! ## A device -/

/-- `/dev/sda2` to `/dev/sda5` -/
def someMachine : Machine where
  kernA := ['2']
  rootA := ['3']
  kernB := ['4']
  rootB := ['5']
  getPartitionNumber := fun s => s.rtakeWhile Char.isDigit
  disk := "/dev/sda".toList
  delim := []
  distinct := by decide
  number := by decide

def someDevice : Device where
  parts := fun part => if part = someMachine.kern .a ∨ part = someMachine.root .a then .factory .a
    else .factory .b
  stateful := fun _ => .absent
  active := .a
  next := .a
  completed := none
  rebootDue := false

theorem inv_someDevice : Inv someMachine someDevice where
  active := .factory .a
  next := .factory .a
  recorded := fun _ h => by cases h

/-- All goes well. -/
def smooth : ∀ ⦃β : Type⦄, Op β → Device → Option (β × Device)
  | _, .completedFile, d => some (d.completed, d)
  | _, .rootdev, d => some (someMachine.root d.active, d)
  | _, .rootDisk, d => some (someMachine.disk, d)
  | _, .stop _, d => some ((), d)
  | _, .postStatus _, d => some ((), d)
  | _, .writePartition url part, d => some ((0, 0, 0), d.setPart part (.image url))
  | _, .rm name, d => some (true, { d with stateful := Function.update d.stateful name .absent })
  | _, .untar url, d => some ((0, 0), { d with
      stateful :=
        Function.update (Function.update d.stateful varNew (.tree url)) devImageNew (.tree url) })
  | _, .markUpdate text, d =>
    some (true, { d with stateful := Function.update d.stateful updateStateFile (.file text) })
  | _, .mount _, d => some (true, d)
  | _, .postinst part, d =>
    if part = someMachine.root .b then some (0, { d with next := .b })
    else if part = someMachine.root .a then some (0, { d with next := .a })
    else some (1, d)
  | _, .umount, d => some ((), d)
  | _, .complete build, d => some ((), { d with completed := some (echo build) })
  | _, .reboot, d => some ((), { d with rebootDue := true })

theorem sem_of_smooth ⦃β : Type⦄ (o : Op β) (d : Device) (b : β) (d' : Device)
    (h : smooth o d = some (b, d')) :
    sem someMachine o d b d' := by
  cases o with
  | writePartition | rm | markUpdate =>
    cases h
    exact ⟨_, fun _ => rfl, rfl⟩
  | untar =>
    cases h
    exact ⟨_, _, fun _ => ⟨rfl, rfl⟩, rfl⟩
  | postinst part =>
    simp only [smooth] at h
    split at h
    · next hpart =>
      cases h
      exact .inr ⟨.b, hpart, rfl⟩
    · split at h
      · next hpart =>
        cases h
        exact .inr ⟨.a, hpart, rfl⟩
      · cases h
        exact .inl ⟨by decide, rfl⟩
  | complete build =>
    cases h
    exact .inr ⟨_, List.prefix_refl _, rfl⟩
  | completedFile | rootdev | rootDisk =>
    cases h
    exact ⟨rfl, rfl⟩
  | _ =>
    cases h
    rfl

theorem exec_someDevice : ∃ d, Exec (sem someMachine)
    (provisionDevice someMachine.toGpt true "eve-release/R80".toList
      "http://devserver/static".toList) someDevice (.ok ()) d := by
  have hrun :
    ((provisionDevice someMachine.toGpt true "eve-release/R80".toList
      "http://devserver/static".toList).eval smooth
      someDevice).map Prod.fst = some (.ok ()) := by rfl
  obtain ⟨⟨r, d⟩, heval, hr⟩ := Option.map_eq_some_iff.mp hrun
  obtain rfl : r = _ := hr
  exact ⟨d, exec_of_eval sem_of_smooth heval⟩

/-- What a failed attempt leaves. -/
def brokenDevice : Device := someDevice.setPart (someMachine.kern .b) .broken

theorem exec_brokenDevice : ∃ d, Exec (sem someMachine)
    (provisionDevice someMachine.toGpt true "eve-release/R80".toList
      "http://devserver/static".toList) brokenDevice
    (.ok ()) d := by
  have hrun :
    ((provisionDevice someMachine.toGpt true "eve-release/R80".toList
      "http://devserver/static".toList).eval smooth
      brokenDevice).map Prod.fst = some (.ok ()) := by rfl
  obtain ⟨⟨r, d⟩, heval, hr⟩ := Option.map_eq_some_iff.mp hrun
  obtain rfl : r = _ := hr
  exact ⟨d, exec_of_eval sem_of_smooth heval⟩

/-! ## A life of a device -/

/-- The states of a device: attempts, each of them possibly cut off, and restarts. -/
inductive Life (m : Machine) (d₀ : Device) : Device → Prop
  | start : Life m d₀ d₀
  | attempt {d d' : Device} {flagsReboot : Bool} {build staticUrl : Text} {p : P Unit} :
      Life m d₀ d → ¬d.Window →
      Steps (sem m) (provisionDevice m.toGpt flagsReboot build staticUrl) d p d' → Life m d₀ d'
  | boot {d : Device} : Life m d₀ d → Life m d₀ d.boot

theorem inv_steps (hinv : Inv m d₀) (hwindow : ¬d₀.Window) {flagsReboot : Bool} {p : P Unit}
    (h : Steps (sem m) (provisionDevice m.toGpt flagsReboot build staticUrl) d₀ p d) : Inv m d := by
  have halong :=
    (does_provisionDevice _).steps ⟨⟨rfl, fun _ _ _ => rfl, fun _ _ _ _ => rfl⟩, .inl rfl, .inl rfl,
    fun _ => rfl⟩ h
  exact halong.inv hinv hwindow

/-- **As long as no attempt begins in the window, what runs and what boots next is whole, and what
is recorded is on the other slot and staged.** -/
theorem life_safe (hinv : Inv m d₀) (h : Life m d₀ d) : Inv m d := by
  induction h with
  | start => exact hinv
  | attempt _ hwindow hsteps ih => exact inv_steps ih hwindow hsteps
  | boot _ ih => exact ih.boot

/-- Writing the kernel of the other slot fails. -/
theorem steps_broken (m : Machine) (flagsReboot : Bool) (build staticUrl : Text)
    (h₀ : d₀.completed = none) :
    ∃ p, Steps (sem m) (provisionDevice m.toGpt flagsReboot build staticUrl) d₀ p
      (d₀.setPart (m.kern d₀.active.other) .broken) := by
  have hread : sem m .completedFile d₀ none d₀ := ⟨h₀.symm, rfl⟩
  have hroot : sem m .rootdev d₀ (m.root d₀.active) d₀ := ⟨rfl, rfl⟩
  have hdisk : sem m .rootDisk d₀ m.disk d₀ := ⟨rfl, rfl⟩
  have hwrite : sem m
    (.writePartition (imageUrl staticUrl build kernImage) (m.kern d₀.active.other)) d₀ (1, 0, 0)
      (d₀.setPart (m.kern d₀.active.other) .broken) := ⟨.broken, (fun h => by cases h), rfl⟩
  refine exists_steps_op hread (exists_steps_op hroot (exists_steps_op hdisk ?_))
  rw [Prog.bind, nextPartitions_root]
  have hstop : ∀ job, sem m (.stop job) d₀ () d₀ := fun _ => rfl
  have hpost : ∀ status, sem m (.postStatus status) d₀ () d₀ := fun _ => rfl
  refine exists_steps_op (hstop _) (exists_steps_op (hstop _) (exists_steps_op (hpost _) ?_))
  exact exists_steps_op hwrite ⟨_, .refl⟩

/-- An attempt that fails, one that goes well, a restart, and one that fails on the other slot. -/
theorem life_safe_someDevice : ∃ d, Life someMachine someDevice d ∧ d.active = .b ∧
    d.parts (someMachine.kern .a) = .broken ∧ Inv someMachine d := by
  let build := "eve-release/R80".toList
  let staticUrl := "http://devserver/static".toList
  obtain ⟨p₁, hfails⟩ := @steps_broken someDevice someMachine true build staticUrl rfl
  obtain ⟨d₂, hexec⟩ := exec_brokenDevice
  obtain ⟨p₂, hsteps⟩ := Steps.of_exec hexec
  obtain ⟨p₃, hfails'⟩ := @steps_broken d₂.boot someMachine false build staticUrl rfl
  have hlife : Life someMachine someDevice brokenDevice :=
    .attempt .start (fun hwindow => hwindow.1 rfl) hfails
  have hlife : Life someMachine someDevice d₂.boot :=
    .boot (.attempt hlife (fun hwindow => hwindow.1 rfl) hsteps)
  have hlife := hlife.attempt (fun hwindow => hwindow.1 rfl) hfails'
  rcases (does_provisionDevice true).exec hexec with ⟨hsome, -⟩ | ⟨-, hended⟩
  · cases hsome
  · have hactive : d₂.boot.active = .b := hended.next
    have hkern : someMachine.kern .a = someMachine.kern d₂.boot.active.other := by
      rw [hactive]
      rfl
    refine ⟨_, hlife, hactive, ?_, life_safe inv_someDevice hlife⟩
    rw [hkern]
    exact Function.update_self ..

/-- **An attempt can be cut off wherever one likes with the next system whole, just if it does not
begin in the window.** -/
theorem attempt_safe_iff (flagsReboot : Bool) (build staticUrl : Text) (hinv : Inv m d₀) :
    (∀ p d, Steps (sem m) (provisionDevice m.toGpt flagsReboot build staticUrl) d₀ p d →
      d.Whole m d.next) ↔ ¬d₀.Window := by
  constructor
  · rintro hsafe ⟨hne, h₀⟩
    obtain ⟨p, hsteps⟩ := steps_broken m flagsReboot build staticUrl h₀
    have hbroken : (d₀.setPart (m.kern d₀.active.other) .broken).parts
        (m.kern d₀.active.other) = .broken :=
      Function.update_self ..
    have hnext : (d₀.setPart (m.kern d₀.active.other) .broken).next = d₀.active.other :=
      Slot.eq_other_of_ne hne
    have hwhole := hsafe p _ hsteps
    rw [hnext, Device.Whole, hbroken] at hwhole
    cases hwhole
  · intro hwindow p d hsteps
    exact (inv_steps hinv hwindow hsteps).next

/-- The other slot boots next, and it is not recorded why. -/
def windowDevice : Device := { someDevice with next := .b }

theorem attempt_safe_iff_someDevice :
    (∀ p d, Steps (sem someMachine) (provisionDevice someMachine.toGpt true "eve-release/R80".toList
        "http://devserver/static".toList) brokenDevice p d → d.Whole someMachine d.next) ∧
      ¬∀ p d, Steps (sem someMachine)
        (provisionDevice someMachine.toGpt true "eve-release/R80".toList
        "http://devserver/static".toList) windowDevice p d → d.Whole someMachine d.next := by
  have hbroken : Inv someMachine brokenDevice := ⟨.factory .a, .factory .a, fun _ h => by cases h⟩
  have hwindow : Inv someMachine windowDevice := ⟨.factory .a, .factory .b, fun _ h => by cases h⟩
  constructor
  · exact (attempt_safe_iff true _ _ hbroken).mpr fun h => h.1 rfl
  · exact fun hsafe => (attempt_safe_iff true _ _ hwindow).mp hsafe ⟨by decide, rfl⟩

/-- **An attempt that ends well has found its build recorded and done nothing, or has put the build
on the other slot, staged its archive and made it the next to boot, with no other partition and no
other file of stateful written.** -/
theorem attempt_ok {flagsReboot : Bool}
    (h : Exec (sem m) (provisionDevice m.toGpt flagsReboot build staticUrl) d₀ (.ok ()) d) :
    d₀.completed = some (echo build) ∧ d = d₀ ∨ d₀.completed = none ∧
      Ended m flagsReboot build staticUrl d₀ d :=
  (does_provisionDevice flagsReboot).exec h

theorem attempt_ok_someDevice : ∃ d, someDevice.completed = some (echo "eve-release/R80".toList) ∧
    d = someDevice ∨
    someDevice.completed = none ∧
      Ended someMachine true "eve-release/R80".toList "http://devserver/static".toList
        someDevice d := by
  obtain ⟨d, h⟩ := exec_someDevice
  exact ⟨d, attempt_ok h⟩

end Provision
