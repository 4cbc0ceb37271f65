import Aft.Gc.Family

/-!
# The sweep keeps live data

`Safe` is the invariant of the interleaved system. While the sweep marks, a key that it can no
longer meet is `Covered`: marked already, or stamped with the sweep's epoch. A key touched under a
held pin is covered once the pins of its member are listed; a key of a current generation once the
member is done, and before that once the pointer has been read, unless the marker of the generation
is held. Releasing it in between is the one step that breaks the invariant (`KeepsMarker`).
-/

namespace Aft.Gc

variable {Member Gen Key Plane : Type}

namespace Family

/-! ## The invariant -/

/-- A key that the deletion of this sweep cannot reach. -/
def Covered (layout : Layout Key Plane) (family : Family Member Gen Key Plane) (epoch : ℕ)
    (marked : List Key) (key : Key) : Prop :=
  key ∈ marked ∨ layout.planeOf key ∉ layout.stores ∨ ∃ ref ∈ family.rows key, epoch ≤ ref

/-- A key of a current generation whose publisher no longer holds the marker. -/
def CurrentBare (family : Family Member Gen Key Plane) (member : Member) (key : Key) : Prop :=
  ∃ id publisher, family.publishers.find? id = some publisher ∧ publisher.stage = .swapped ∧
    publisher.member = member ∧ family.pointer member = some publisher.generation ∧
    publisher.markerHeld = false ∧ key ∈ publisher.keys

def PinsListed (todo : List Member) (next : MemberStage) (member : Member) : Prop :=
  member ∉ todo ∨ next = .markers ∧ todo.head? = some member

section

variable (layout : Layout Key Plane) (family : Family Member Gen Key Plane)

/-- What holds while the sweep marks. -/
structure Marking (epoch : ℕ)
    (marked : List Key) (todo : List Member) (next : MemberStage) : Prop where
  raised : ∀ plane ∈ layout.stores, epoch ≤ family.storeEpoch plane
  held : ∀ member key, family.Held member key → PinsListed todo next member →
    Covered layout family epoch marked key
  done : ∀ member key, family.Current member key → member ∉ todo →
    Covered layout family epoch marked key
  between : ∀ member key, family.CurrentBare member key → todo.head? = some member →
    next ≠ .pointer → Covered layout family epoch marked key

/-- What holds while the sweep deletes. -/
structure Deleting (epoch : ℕ) (marked : List Key) : Prop where
  raised : ∀ plane ∈ layout.stores, epoch ≤ family.storeEpoch plane
  covered : ∀ member key, family.Held member key ∨ family.Current member key →
    Covered layout family epoch marked key

/-- What holds at the current point of the sweep. -/
def SweepSafe : Prop :=
  match family.sweep with
  | .idle => True
  | .raising epoch todo => ∀ plane ∈ layout.stores, plane ∈ todo ∨ epoch ≤ family.storeEpoch plane
  | .marking epoch marked todo next => Marking layout family epoch marked todo next
  | .deleting epoch marked => Deleting layout family epoch marked

end

/-- What the stage of a publication says about its protections. -/
structure Consistent (family : Family Member Gen Key Plane) (publisher : Publisher Member Gen Key) :
    Prop where
  registered : publisher.member ∈ family.members
  touched_subset : ∀ key ∈ publisher.touched, key ∈ publisher.keys
  all_touched : publisher.stage ≠ .touching → ∀ key ∈ publisher.keys, key ∈ publisher.touched
  pinHeld : publisher.stage ≠ .swapped → publisher.pinHeld = true
  markerHeld : publisher.stage = .marked ∨ publisher.stage = .written →
    publisher.markerHeld = true
  manifest : publisher.stage = .written ∨ publisher.stage = .swapped →
    family.manifest publisher.generation = some publisher.keys

/-- The records of the publishers fit the manifests and pointers. -/
structure Books (family : Family Member Gen Key Plane) : Prop where
  consistent : ∀ {id publisher}, family.publishers.find? id = some publisher →
    family.Consistent publisher
  distinct : ∀ {id id' publisher publisher'}, family.publishers.find? id = some publisher →
    family.publishers.find? id' = some publisher' →
    publisher.generation = publisher'.generation → id = id'
  current : ∀ {member generation}, family.pointer member = some generation →
    ∃ id publisher, family.publishers.find? id = some publisher ∧
      publisher.generation = generation ∧ publisher.member = member ∧ publisher.stage = .swapped

/-- The invariant of the interleaved system. -/
structure Safe (layout : Layout Key Plane) (family : Family Member Gen Key Plane) : Prop where
  books : family.Books
  present : family.LiveDataPresent
  sweep : SweepSafe layout family

/-! ## Records -/

variable {family : Family Member Gen Key Plane} {new publisher : Publisher Member Gen Key}

theorem find?_setPublisher {id other : ℕ}
    (h : (family.setPublisher id new).publishers.find? other = some publisher) :
    other = id ∧ publisher = new ∨ other ≠ id ∧ family.publishers.find? other = some publisher := by
  by_cases ho : other = id
  · subst ho
    exact .inl ⟨rfl, (Option.mem_unique (SortedMap.find?_insert_self ..) h).symm⟩
  · exact .inr ⟨ho, (SortedMap.find?_insert_of_ne _ _ ho).symm.trans h⟩

variable {next : Family Member Gen Key Plane}

theorem Consistent.of_eq (h : family.Consistent publisher)
    (hm : ∀ member ∈ family.members, member ∈ next.members)
    (hma : next.manifest publisher.generation = family.manifest publisher.generation) :
    next.Consistent publisher :=
  ⟨hm _ h.registered, h.touched_subset, h.all_touched, h.pinHeld, h.markerHeld,
    fun hs => hma.trans (h.manifest hs)⟩

variable {member : Member} {key : Key}

section

variable (h : family.Books)
include h

theorem Books.congr (hm : next.members = family.members) (hp : next.publishers = family.publishers)
    (hma : next.manifest = family.manifest) (hpo : next.pointer = family.pointer) : next.Books := by
  refine ⟨fun hf => ?_, ?_, ?_⟩
  · rw [hp] at hf
    exact (h.consistent hf).of_eq (fun _ hmem => hm ▸ hmem) (by rw [hma])
  · rw [hp]
    exact h.distinct
  · rw [hp, hpo]
    exact h.current

/-- Change one record to a later stage of the same publication. -/
theorem Books.setPublisher {id : ℕ} {old : Publisher Member Gen Key}
    (hold : family.publishers.find? id = some old) (hg : new.generation = old.generation)
    (hm : new.member = old.member) (hs : old.stage = .swapped → new.stage = .swapped)
    (hnew : family.Consistent new) : (family.setPublisher id new).Books := by
  refine ⟨fun hf => ?_, fun hf hf' heq => ?_, fun hp => ?_⟩
  · rcases find?_setPublisher hf with ⟨-, rfl⟩ | ⟨-, hold'⟩
    · exact hnew.of_eq (fun _ hmem => hmem) rfl
    · exact (h.consistent hold').of_eq (fun _ hmem => hmem) rfl
  · rcases find?_setPublisher hf with ⟨rfl, rfl⟩ | ⟨-, hfind₁⟩ <;>
      rcases find?_setPublisher hf' with ⟨rfl, rfl⟩ | ⟨-, hfind₂⟩
    · rfl
    · exact h.distinct hold hfind₂ (hg.symm.trans heq)
    · exact h.distinct hfind₁ hold (heq.trans hg)
    · exact h.distinct hfind₁ hfind₂ heq
  · obtain ⟨other, publisher, hf, hgen, hmem, hsw⟩ := h.current hp
    by_cases ho : other = id
    · subst ho
      obtain rfl := Option.mem_unique hf hold
      exact ⟨other, new, SortedMap.find?_insert_self .., hg.trans hgen, hm.trans hmem, hs hsw⟩
    · exact ⟨other, publisher, (SortedMap.find?_insert_of_ne _ _ ho).trans hf, hgen, hmem, hsw⟩

/-- The record behind the current generation of a member. -/
theorem Books.exists_current (hc : family.Current member key) :
    ∃ id publisher, family.publishers.find? id = some publisher ∧ publisher.stage = .swapped ∧
      publisher.member = member ∧ family.pointer member = some publisher.generation ∧
      family.manifest publisher.generation = some publisher.keys ∧ key ∈ publisher.keys := by
  obtain ⟨-, generation, keys, hp, hm, hkey⟩ := hc
  obtain ⟨id, publisher, hf, rfl, hme, hs⟩ := h.current hp
  have hk := (h.consistent hf).manifest (.inr hs)
  obtain rfl := Option.mem_unique hm hk
  exact ⟨id, publisher, hf, hs, hme, hp, hk, hkey⟩

theorem CurrentBare.current (hb : family.CurrentBare member key) : family.Current member key := by
  obtain ⟨id, publisher, hf, hs, rfl, hp, -, hkey⟩ := hb
  have hc := h.consistent hf
  exact ⟨hc.registered, _, _, hp, hc.manifest (.inr hs), hkey⟩

theorem Books.bare_or_marker [DecidableEq Member] (hc : family.Current member key) :
    family.CurrentBare member key ∨ key ∈ family.markedKeys member := by
  obtain ⟨id, publisher, hf, hs, hm, hp, hma, hkey⟩ :=
    h.exists_current hc
  cases hmar : publisher.markerHeld with
  | false => exact .inl ⟨id, publisher, hf, hs, hm, hp, hmar, hkey⟩
  | true =>
    right
    have hv : publisher ∈ family.publishers.values :=
      List.mem_map.2 ⟨_, SortedMap.find?_eq_some_iff.1 hf, rfl⟩
    exact List.mem_flatMap.2 ⟨publisher, List.mem_filter.2 ⟨hv, by simp [hmar, hm]⟩,
      by simpa [hma] using hkey⟩

end

/-! ## Steps of the publishers -/

variable {layout : Layout Key Plane} {epoch : ℕ} {marked : List Key}

theorem Covered.mono
    (hr : ∀ key ref, family.rows key = some ref → ∃ ref' ∈ next.rows key, ref ≤ ref')
    (h : Covered layout family epoch marked key) : Covered layout next epoch marked key := by
  refine h.imp_right (Or.imp_right ?_)
  rintro ⟨ref, href, hle⟩
  obtain ⟨ref', href', hle'⟩ := hr key ref href
  exact ⟨ref', href', hle.trans hle'⟩

def Fresh (layout : Layout Key Plane) (family : Family Member Gen Key Plane) (key : Key) : Prop :=
  ∃ ref ∈ family.rows key, family.storeEpoch (layout.planeOf key) ≤ ref

theorem Fresh.covered (h : Fresh layout family key)
    (hr : ∀ plane ∈ layout.stores, epoch ≤ family.storeEpoch plane) :
    Covered layout family epoch marked key := by
  by_cases hp : layout.planeOf key ∈ layout.stores
  · obtain ⟨ref, href, hle⟩ := h
    exact .inr (.inr ⟨ref, href, (hr _ hp).trans hle⟩)
  · exact .inr (.inl hp)

/-- A publisher removes no row, stamps newly touched keys, holds newly current keys, and drops a
marker only where the sweep does not need it. -/
structure PublisherStep (layout : Layout Key Plane) (family next : Family Member Gen Key Plane) :
    Prop where
  sweep : next.sweep = family.sweep
  storeEpoch : next.storeEpoch = family.storeEpoch
  rows : ∀ key ref, family.rows key = some ref → ∃ ref' ∈ next.rows key, ref ≤ ref'
  held : ∀ member key, next.Held member key → family.Held member key ∨ Fresh layout next key
  current : ∀ member key, next.Current member key →
    family.Current member key ∨ family.Held member key
  bare : ∀ member key, next.CurrentBare member key →
    family.CurrentBare member key ∨ ¬ family.Between member

theorem Safe.publisherStep (h : Safe layout family) (hs : PublisherStep layout family next)
    (hb : next.Books) : Safe layout next := by
  refine ⟨hb, fun member key hl => ?_, ?_⟩
  · have hk : (family.rows key).isSome → (next.rows key).isSome := by
      intro hrow
      obtain ⟨ref, href⟩ := Option.isSome_iff_exists.1 hrow
      obtain ⟨ref', href', -⟩ := hs.rows key ref href
      exact Option.isSome_iff_exists.2 ⟨ref', href'⟩
    rcases hl with hh | hc
    · rcases hs.held member key hh with hh | ⟨ref, href, -⟩
      · exact hk (h.present member key (.inl hh))
      · exact Option.isSome_iff_exists.2 ⟨ref, href⟩
    · exact hk (h.present member key ((hs.current member key hc).symm.imp id id))
  · have hsa := h.sweep
    unfold SweepSafe at hsa ⊢
    rw [hs.sweep]
    cases hsw : family.sweep with
    | idle => trivial
    | raising epoch todo =>
      rw [hsw] at hsa
      simpa only [hs.storeEpoch] using hsa
    | marking epoch marked todo stage =>
      rw [hsw] at hsa
      have hr : ∀ plane ∈ layout.stores, epoch ≤ next.storeEpoch plane := by
        simpa only [hs.storeEpoch] using hsa.raised
      refine ⟨hr, fun member key hh hli => ?_, fun member key hc hd => ?_,
        fun member key hba hhe hst => ?_⟩
      · rcases hs.held member key hh with hh | hf
        · exact (hsa.held member key hh hli).mono hs.rows
        · exact hf.covered hr
      · rcases hs.current member key hc with hc | hh
        · exact (hsa.done member key hc hd).mono hs.rows
        · exact (hsa.held member key hh (.inl hd)).mono hs.rows
      · rcases hs.bare member key hba with hba | hbe
        · exact (hsa.between member key hba hhe hst).mono hs.rows
        · refine absurd ?_ hbe
          unfold Between
          obtain ⟨rest, rfl⟩ : ∃ rest, todo = member :: rest := by
            cases todo with
            | nil => simp at hhe
            | cons first rest => exact ⟨rest, by simpa using hhe⟩
          simpa [hsw] using hst
    | deleting epoch marked =>
      rw [hsw] at hsa
      have hr : ∀ plane ∈ layout.stores, epoch ≤ next.storeEpoch plane := by
        simpa only [hs.storeEpoch] using hsa.raised
      refine ⟨hr, fun member key hl => ?_⟩
      rcases hl with hh | hc
      · rcases hs.held member key hh with hh | hf
        · exact (hsa.covered member key (.inl hh)).mono hs.rows
        · exact hf.covered hr
      · exact (hsa.covered member key (hs.current member key hc).symm).mono hs.rows

end Family

end Aft.Gc
