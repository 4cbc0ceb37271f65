import Aft.Gc.Sweep

/-!
# Live data survives the sweep

Every step of a publisher is a `PublisherStep`, and every step of the sweep discharges what the
next point of the sweep asks for. From an empty family, each run that keeps the markers the sweep
still needs therefore keeps every live key stored.
-/

namespace Aft.Gc

open List Function Option Family SortedMap

variable {Member Gen Key Plane : Type}

namespace Family

/-! ## One record changed -/

variable {member : Member} {key : Key}

section Records

variable {family : Family Member Gen Key Plane} {id : ℕ} {new : Publisher Member Gen Key}

theorem held_setPublisher (h : (family.setPublisher id new).Held member key) :
    family.Held member key ∨ key ∈ new.touched ∧ new.pinHeld = true ∧ new.member = member := by
  obtain ⟨other, publisher, hf, hpin, hm, hkey⟩ := h
  rcases find?_setPublisher hf with ⟨-, rfl⟩ | ⟨-, hold⟩
  · exact .inr ⟨hkey, hpin, hm⟩
  · exact .inl ⟨other, publisher, hold, hpin, hm, hkey⟩

theorem currentBare_setPublisher (h : (family.setPublisher id new).CurrentBare member key) :
    family.CurrentBare member key ∨ new.stage = .swapped ∧ new.member = member ∧
      family.pointer member = some new.generation ∧ new.markerHeld = false ∧ key ∈ new.keys := by
  obtain ⟨other, publisher, hf, hs, hm, hp, hma, hkey⟩ := h
  rcases find?_setPublisher hf with ⟨-, rfl⟩ | ⟨-, hold⟩
  · exact .inr ⟨hs, hm, hp, hma, hkey⟩
  · exact .inl ⟨other, publisher, hold, hs, hm, hp, hma, hkey⟩

/-- A later stage of one publication, which drops no marker that the sweep still needs. -/
theorem Safe.setPublisher {layout : Layout Key Plane} {old : Publisher Member Gen Key}
    (h : Safe layout family) (hold : family.publishers.find? id = some old)
    (hg : new.generation = old.generation) (hm : new.member = old.member)
    (ht : new.touched = old.touched) (hh : new.pinHeld = true → old.pinHeld = true)
    (hs : old.stage = .swapped → new.stage = .swapped) (hnew : family.Consistent new)
    (hb : new.stage = .swapped → new.markerHeld = false →
      family.pointer new.member = some new.generation → old.stage = .swapped ∧
        old.markerHeld = false ∧ new.keys = old.keys ∨ ¬ family.Between new.member) :
    Safe layout (family.setPublisher id new) := by
  refine h.publisherStep ⟨rfl, rfl, fun _ ref href => ⟨ref, href, le_rfl⟩, fun member key hheld => ?_,
    fun _ _ => .inl, fun member key hbare => ?_⟩ (h.books.setPublisher hold hg hm hs hnew)
  · rcases held_setPublisher hheld with hheld | ⟨hkey, hpin, hmem⟩
    · exact .inl hheld
    · exact .inl ⟨id, old, hold, hh hpin, hm.symm.trans hmem, ht ▸ hkey⟩
  · rcases currentBare_setPublisher hbare with hbare | ⟨hs, rfl, hp, hma, hkey⟩
    · exact .inl hbare
    · refine (hb hs hma hp).imp_left ?_
      rintro ⟨hs', hm', hk⟩
      exact ⟨id, old, hold, hs', hm.symm, hg ▸ hp, hm', hk ▸ hkey⟩

end Records

/-! ## Publishing -/

variable {layout : Layout Key Plane} {family : Family Member Gen Key Plane}

variable {ref : ℕ}

theorem rows_putOrTouch [DecidableEq Key] (key other : Key) (href : family.rows other = some ref) :
    ∃ ref' ∈ (family.putOrTouch layout key).rows other, ref ≤ ref' := by
  by_cases ho : other = key
  · subst ho
    exact ⟨_, update_self .., by simp [stamped, href]⟩
  · exact ⟨ref, (update_of_ne ho ..).trans href, le_rfl⟩

variable {publisher : Publisher Member Gen Key} {id : ℕ}

variable {epoch : ℕ} {marked : List Key}

theorem Covered.append (h : Covered layout family epoch marked key) (more : List Key) :
    Covered layout family epoch (marked ++ more) key :=
  h.imp_left (mem_append_left _)

section

variable (h : Safe layout family)
include h

/-- Putting or touching a key of the pin. -/
theorem Safe.touched [DecidableEq Key] (hf : family.publishers.find? id = some publisher)
    (hs : publisher.stage = .touching) (hkey : key ∈ publisher.keys) :
    Safe layout ((family.putOrTouch layout key).setPublisher id
      { publisher with touched := key :: publisher.touched }) := by
  have hc := h.books.consistent hf
  refine h.publisherStep ⟨rfl, rfl, fun other ref => rows_putOrTouch key other, ?_,
    fun _ _ hcu => .inl hcu, ?_⟩ ?_
  · intro member other hh
    rcases held_setPublisher hh with hh | ⟨hmem, hpin, hm⟩
    · exact .inl hh
    · rcases mem_cons.1 hmem with rfl | hmem
      · exact .inr ⟨_, update_self .., le_max_right ..⟩
      · exact .inl ⟨id, publisher, hf, hpin, hm, hmem⟩
  · intro member other hb
    rcases currentBare_setPublisher hb with hb | ⟨hsw, -⟩
    · exact .inl hb
    · exact absurd (hs.symm.trans hsw) (by decide)
  · have hbo : (family.putOrTouch layout key).Books := h.books.congr rfl rfl rfl rfl
    refine hbo.setPublisher hf rfl rfl (fun hsw => hsw) ?_
    exact ⟨hc.registered, by simpa using ⟨hkey, hc.touched_subset⟩,
      fun hne => absurd hs hne, hc.pinHeld, hc.markerHeld,
      hc.manifest⟩

theorem Safe.register (member : Member) :
    Safe layout { family with members := family.members ++ [member] } := by
  refine h.publisherStep ⟨rfl, rfl, fun _ ref href => ⟨ref, href, le_rfl⟩, fun _ _ => .inl, ?_,
    fun _ _ => .inl⟩ ⟨fun hf => ?_, h.books.distinct, h.books.current⟩
  · rintro other key ⟨-, generation, keys, hp, hk⟩
    -- A member with a pointer was registered before.
    obtain ⟨id, publisher, hf, -, rfl, -⟩ := h.books.current hp
    exact .inl ⟨(h.books.consistent hf).registered, generation, keys, hp, hk⟩
  · exact (h.books.consistent hf).of_eq (fun _ => mem_append_left _) rfl

theorem Safe.pin {generation : Gen} (keys : List Key) (hm : member ∈ family.members)
    (hf : family.publishers.find? id = none)
    (hfr : ∀ publisher ∈ family.publishers.values, publisher.generation ≠ generation) :
    Safe layout (family.setPublisher id { member, generation, keys }) := by
  have hne : ∀ {other publisher}, family.publishers.find? other = some publisher →
      publisher.generation ≠ generation := fun hfi =>
    hfr _ (mem_map.2 ⟨_, find?_eq_some_iff.1 hfi, rfl⟩)
  refine h.publisherStep ⟨rfl, rfl, fun _ ref href => ⟨ref, href, le_rfl⟩, ?_,
    fun _ _ => .inl, ?_⟩ ⟨fun hfi => ?_, fun hfi hf' heq => ?_, fun hp => ?_⟩
  · intro other key hh
    rcases held_setPublisher hh with hh | ⟨hkey, -⟩
    · exact .inl hh
    · exact absurd hkey not_mem_nil
  · intro other key hb
    rcases currentBare_setPublisher hb with hb | ⟨hs, -⟩
    · exact .inl hb
    · exact absurd hs (by simp)
  · rcases find?_setPublisher hfi with ⟨-, rfl⟩ | ⟨-, hfi⟩
    · exact ⟨hm, by simp, by simp, by simp, by simp, by simp⟩
    · exact (h.books.consistent hfi).of_eq (fun _ hmem => hmem) rfl
  · rcases find?_setPublisher hfi with ⟨rfl, rfl⟩ | ⟨-, hfind₁⟩ <;>
      rcases find?_setPublisher hf' with ⟨rfl, rfl⟩ | ⟨-, hfind₂⟩
    · rfl
    · exact absurd heq.symm (hne hfind₂)
    · exact absurd heq (hne hfind₁)
    · exact h.books.distinct hfind₁ hfind₂ heq
  · obtain ⟨other, publisher, hfi, hr⟩ := h.books.current hp
    have ho : other ≠ id := by
      rintro rfl
      simp [hf] at hfi
    exact ⟨other, publisher, (find?_insert_of_ne _ _ ho).trans hfi, hr⟩

section

variable (hf : family.publishers.find? id = some publisher)
include hf

theorem Safe.createMarker (hs : publisher.stage = .touching)
    (ht : ∀ key ∈ publisher.keys, key ∈ publisher.touched) :
    Safe layout (family.setPublisher id { publisher with markerHeld := true, stage := .marked }) := by
  have hc := h.books.consistent hf
  have hpin := hc.pinHeld (by simp [hs])
  exact h.setPublisher hf rfl rfl rfl (fun hp => hp) (by simp [hs])
    ⟨hc.registered, hc.touched_subset, fun _ => ht, fun _ => hpin, fun _ => rfl, by simp⟩ (by simp)

theorem Safe.releasePins (hst : publisher.stage = .swapped) :
    Safe layout (family.setPublisher id { publisher with pinHeld := false }) := by
  have hc := h.books.consistent hf
  exact h.setPublisher hf rfl rfl rfl (by simp) (fun hs => hs)
    ⟨hc.registered, hc.touched_subset, hc.all_touched, fun hne => absurd hst hne, hc.markerHeld,
      hc.manifest⟩ fun _ hm _ => .inl ⟨hst, hm, rfl⟩

theorem Safe.releaseMarker (hst : publisher.stage = .swapped)
    (hk : family.pointer publisher.member = some publisher.generation →
      ¬ family.Between publisher.member) :
    Safe layout (family.setPublisher id { publisher with markerHeld := false }) := by
  have hc := h.books.consistent hf
  exact h.setPublisher hf rfl rfl rfl (fun hp => hp) (fun hs => hs)
    ⟨hc.registered, hc.touched_subset, hc.all_touched, hc.pinHeld, by simp [hst], hc.manifest⟩
    fun _ _ hp => .inr (hk hp)

theorem Safe.writeManifest [DecidableEq Gen] (hs : publisher.stage = .marked) :
    Safe layout { family.setPublisher id { publisher with stage := .written } with
      manifest := update family.manifest publisher.generation (some publisher.keys) } := by
  -- No other record has the generation whose manifest is written.
  have ho : ∀ {other publisher'}, family.publishers.find? other = some publisher' →
      publisher'.stage = .written ∨ publisher'.stage = .swapped →
      publisher'.generation ≠ publisher.generation := by
    intro other publisher' hf' hs' heq
    obtain rfl := h.books.distinct hf' hf heq
    obtain rfl := mem_unique hf' hf
    simp [hs] at hs'
  have hw : Safe layout { family with
      manifest := update family.manifest publisher.generation (some publisher.keys) } := by
    refine h.publisherStep ⟨rfl, rfl, fun _ ref href => ⟨ref, href, le_rfl⟩, fun _ _ => .inl, ?_,
      fun _ _ => .inl⟩ ⟨fun hf' => ?_, h.books.distinct, h.books.current⟩
    · rintro member key ⟨hm, generation, keys, hp, hma, hkey⟩
      obtain ⟨other, publisher', hf', rfl, -, hs'⟩ := h.books.current hp
      exact .inl ⟨hm, _, keys, hp, (update_of_ne (ho hf' (.inr hs')) ..).symm.trans hma, hkey⟩
    · have hold := h.books.consistent hf'
      exact ⟨hold.registered, hold.touched_subset, hold.all_touched, hold.pinHeld, hold.markerHeld,
        fun hs' => (update_of_ne (ho hf' hs') ..).trans (hold.manifest hs')⟩
  have hc := h.books.consistent hf
  exact hw.setPublisher hf rfl rfl rfl (fun hp => hp) (by simp [hs])
    ⟨hc.registered, hc.touched_subset, fun _ => hc.all_touched (by simp [hs]),
      fun _ => hc.pinHeld (by simp [hs]), fun _ => hc.markerHeld (.inl hs), fun _ => update_self ..⟩
    (by simp)

theorem Safe.swapPointer [DecidableEq Member] (hs : publisher.stage = .written) :
    Safe layout { family.setPublisher id { publisher with stage := .swapped } with
      pointer := update family.pointer publisher.member (some publisher.generation) } := by
  have hc := h.books.consistent hf
  have hpin : publisher.pinHeld = true := hc.pinHeld (by simp [hs])
  have ht := hc.all_touched (by simp [hs])
  have hm := hc.manifest (.inl hs)
  have hmar := hc.markerHeld (.inr hs)
  have hsw : Safe layout (family.setPublisher id { publisher with stage := .swapped }) :=
    h.setPublisher hf rfl rfl rfl (fun hp => hp) (fun _ => rfl)
      ⟨hc.registered, hc.touched_subset, fun _ => ht, by simp, by simp, fun _ => hm⟩ (by simp [hmar])
  have hfi : (family.setPublisher id { publisher with stage := .swapped }).publishers.find? id =
      some { publisher with stage := .swapped } := find?_insert_self ..
  have hse : update family.pointer publisher.member (some publisher.generation)
      publisher.member = some publisher.generation := update_self ..
  refine hsw.publisherStep ⟨rfl, rfl, fun _ ref href => ⟨ref, href, le_rfl⟩, fun _ _ => .inl, ?_, ?_⟩
    ⟨fun hf' => (hsw.books.consistent hf').of_eq (fun _ hmem => hmem) rfl, hsw.books.distinct,
      fun {member generation} hp => ?_⟩
  · rintro member key ⟨hme, generation, keys, hp, hk, hkey⟩
    by_cases hsa : member = publisher.member
    · subst hsa
      obtain rfl := mem_unique hse hp
      obtain rfl := mem_unique hk hm
      exact .inr ⟨id, _, hfi, hpin, rfl, ht key hkey⟩
    · exact .inl ⟨hme, generation, keys, (update_of_ne hsa ..).symm.trans hp, hk, hkey⟩
  · rintro member key ⟨other, publisher', hf', hst, hme, hp, hma, hkey⟩
    refine .inl ⟨other, publisher', hf', hst, hme, (update_of_ne ?_ ..).symm.trans hp, hma, hkey⟩
    rintro rfl
    obtain rfl := hsw.books.distinct hf' hfi (mem_unique hp hse)
    obtain rfl := mem_unique hf' hfi
    simp [hmar] at hma
  · by_cases hsa : member = publisher.member
    · subst hsa
      obtain rfl := mem_unique hse hp
      exact ⟨id, _, hfi, rfl, rfl, rfl⟩
    · exact hsw.books.current ((update_of_ne hsa ..).symm.trans hp)

theorem Safe.abandon (hs : publisher.stage ≠ .swapped) :
    Safe layout { family with publishers := family.publishers.erase id } := by
  have hk : ∀ {other publisher'}, (family.publishers.erase id).find? other = some publisher' →
      family.publishers.find? other = some publisher' := fun hf' =>
    find?_eq_some_iff.2 (mem_erase.1 (find?_eq_some_iff.1 hf')).1
  refine h.publisherStep ⟨rfl, rfl, fun _ ref href => ⟨ref, href, le_rfl⟩, ?_, fun _ _ => .inl,
    ?_⟩ ⟨fun hf' => ?_, fun hfind₁ hfind₂ => h.books.distinct (hk hfind₁) (hk hfind₂), fun hp => ?_⟩
  · rintro member key ⟨other, publisher', hf', hr⟩
    exact .inl ⟨other, publisher', hk hf', hr⟩
  · rintro member key ⟨other, publisher', hf', hr⟩
    exact .inl ⟨other, publisher', hk hf', hr⟩
  · exact (h.books.consistent (hk hf')).of_eq (fun _ hmem => hmem) rfl
  · obtain ⟨other, publisher', hf', hg, hm, hsw⟩ := h.books.current hp
    have ho : other ≠ id := by
      rintro rfl
      obtain rfl := mem_unique hf' hf
      exact hs hsw
    exact ⟨other, publisher', (find?_erase_of_ne _ ho).trans hf', hg, hm, hsw⟩

end

/-! ## Sweeping -/

theorem Safe.setSweep (registryEpoch : ℕ) (storeEpoch : Plane → ℕ)
    (sweep : SweepState Member Key Plane)
    (hs : SweepSafe layout { family with registryEpoch, storeEpoch, sweep }) :
    Safe layout { family with registryEpoch, storeEpoch, sweep } :=
  ⟨h.books.congr rfl rfl rfl rfl, h.present, hs⟩

theorem Safe.raiseStore [DecidableEq Plane] {plane : Plane}
    {todo : List Plane} (hs : family.sweep = .raising epoch (plane :: todo)) :
    Safe layout { family with
      storeEpoch := update family.storeEpoch plane (max (family.storeEpoch plane) epoch)
      sweep := .raising epoch todo } := by
  have hsa := h.sweep
  simp only [SweepSafe, hs] at hsa
  refine h.setSweep _ _ _ fun other ho => ?_
  change other ∈ todo ∨
    epoch ≤ update family.storeEpoch plane (max (family.storeEpoch plane) epoch) other
  by_cases hsam : other = plane
  · subst hsam
    rw [update_self]
    exact .inr (le_max_right ..)
  · rw [update_of_ne hsam]
    exact (hsa other ho).imp_left fun hmem => (mem_cons.1 hmem).resolve_left hsam

theorem Safe.beginMarking (hs : family.sweep = .raising epoch []) :
    Safe layout { family with sweep := .marking epoch [] family.members .pointer } := by
  have hsa := h.sweep
  simp only [SweepSafe, hs] at hsa
  refine h.setSweep _ _ _ ⟨fun plane hp => (hsa plane hp).resolve_left not_mem_nil, ?_, ?_, ?_⟩
  · rintro member key ⟨id, publisher, hf, -, rfl, -⟩ hl
    rcases hl with hnot | ⟨hn, -⟩
    · exact absurd (h.books.consistent hf).registered hnot
    · cases hn
  · exact fun member key hc hnot => absurd hc.1 hnot
  · exact fun member key _ _ hn => absurd rfl hn

variable {todo : List Member}

theorem Safe.readPointer (hs : family.sweep = .marking epoch marked (member :: todo) .pointer) :
    Safe layout { family with
      sweep := .marking epoch (marked ++ family.currentKeys member) (member :: todo) .pins } := by
  have hsa := h.sweep
  simp only [SweepSafe, hs] at hsa
  refine h.setSweep _ _ _ ⟨hsa.raised, fun other key hh hl => ?_,
    fun other key hc hd => (hsa.done other key hc hd).append _,
    fun other key hb hhe _ => ?_⟩
  · refine (hsa.held other key hh (.inl ?_)).append _
    rcases hl with hnot | ⟨hn, -⟩
    · exact hnot
    · cases hn
  · obtain rfl : member = other := by simpa using hhe
    obtain ⟨-, generation, keys, hp, hm, hkey⟩ := CurrentBare.current h.books hb
    have hc : key ∈ family.currentKeys member := by
      simpa [currentKeys, hp, hm] using hkey
    exact .inl (mem_append_right _ hc)

theorem Safe.listPins [DecidableEq Member]
    (hs : family.sweep = .marking epoch marked (member :: todo) .pins) :
    Safe layout { family with
      sweep := .marking epoch (marked ++ family.pinnedKeys member) (member :: todo) .markers } := by
  have hsa := h.sweep
  simp only [SweepSafe, hs] at hsa
  refine h.setSweep _ _ _ ⟨hsa.raised, fun other key hh hl => ?_,
    fun other key hc hd => (hsa.done other key hc hd).append _,
    fun other key hb hhe _ => (hsa.between other key hb hhe (by simp)).append _⟩
  rcases hl with hnot | ⟨-, hhe⟩
  · exact (hsa.held other key hh (.inl hnot)).append _
  · obtain rfl : member = other := by simpa using hhe
    obtain ⟨id, publisher, hf, hpin, hm, ht⟩ := hh
    have hkey := (h.books.consistent hf).touched_subset key ht
    have hv : publisher ∈ family.publishers.values :=
      mem_map.2 ⟨_, find?_eq_some_iff.1 hf, rfl⟩
    have hp : key ∈ family.pinnedKeys member := mem_flatMap.2
      ⟨publisher, mem_filter.2 ⟨hv, by simp [hpin, hm]⟩, hkey⟩
    exact .inl (mem_append_right _ hp)

theorem Safe.listMarkers [DecidableEq Member]
    (hs : family.sweep = .marking epoch marked (member :: todo) .markers) :
    Safe layout { family with
      sweep := .marking epoch (marked ++ family.markedKeys member) todo .pointer } := by
  have hsa := h.sweep
  simp only [SweepSafe, hs] at hsa
  refine h.setSweep _ _ _ ⟨hsa.raised, fun other key hh hl => ?_,
    fun other key hc hd => ?_, fun other key _ _ hn => absurd rfl hn⟩
  · refine (hsa.held other key hh ?_).append _
    rcases hl with hnot | ⟨hn, -⟩
    · by_cases hsam : other = member
      · exact .inr ⟨rfl, by simp [hsam]⟩
      · exact .inl (by simp [hsam, hnot])
    · cases hn
  · by_cases hsam : other = member
    · subst hsam
      rcases h.books.bare_or_marker hc with hb | hm
      · exact (hsa.between other key hb rfl (by simp)).append _
      · exact .inl (mem_append_right _ hm)
    · exact (hsa.done other key hc (by simp [hsam, hd])).append _

theorem Safe.beginDeleting {next : MemberStage}
    (hs : family.sweep = .marking epoch marked [] next) :
    Safe layout { family with sweep := .deleting epoch marked } := by
  have hsa := h.sweep
  simp only [SweepSafe, hs] at hsa
  refine h.setSweep _ _ _ ⟨hsa.raised, fun member key hl => ?_⟩
  rcases hl with hh | hc
  · exact hsa.held member key hh (.inl not_mem_nil)
  · exact hsa.done member key hc not_mem_nil

end

theorem sweepSafe_deleting (hs : family.sweep = .deleting epoch marked) :
    SweepSafe layout family ↔ Deleting layout family epoch marked := by
  simp only [SweepSafe, hs]

variable {deleted : Key}

theorem Covered.rows_delete [DecidableEq Key] [DecidableEq Plane]
    (h : Covered layout family epoch marked key) (hd : deleted ∉ marked) :
    (family.deleteIfUnreferencedSince layout deleted epoch).rows key = family.rows key := by
  unfold deleteIfUnreferencedSince
  split_ifs with hc
  · refine update_of_ne ?_ ..
    rintro rfl
    rcases h with hm | hp | ⟨ref, href, hle⟩
    · exact hd hm
    · exact hp hc.1
    · have hlt : ref < epoch := by simpa [mem_def.1 href] using hc.2
      omega
  · rfl

theorem Safe.delete [DecidableEq Key] [DecidableEq Plane] (h : Safe layout family)
    (hs : family.sweep = .deleting epoch marked) (hd : deleted ∉ marked) :
    Safe layout (family.deleteIfUnreferencedSince layout deleted epoch) := by
  have hsa := (sweepSafe_deleting hs).1 h.sweep
  obtain ⟨rows, hr⟩ : ∃ rows, family.deleteIfUnreferencedSince layout deleted epoch =
      { family with rows } := by
    unfold deleteIfUnreferencedSince
    split_ifs
    exacts [⟨_, rfl⟩, ⟨family.rows, rfl⟩]
  have hk : ∀ member key, family.Held member key ∨ family.Current member key →
      rows key = family.rows key := by
    intro member key hl
    have hkey := (hsa.covered member key hl).rows_delete hd
    rwa [hr] at hkey
  rw [hr]
  refine ⟨h.books.congr rfl rfl rfl rfl, fun member key hl => ?_, ?_⟩
  · exact (congrArg isSome (hk member key hl)).trans (h.present member key hl)
  · have hs' : ({ family with rows } : Family Member Gen Key Plane).sweep =
        .deleting epoch marked := hs
    refine (sweepSafe_deleting hs').2 ⟨hsa.raised, fun member key hl => ?_⟩
    refine (hsa.covered member key hl).imp_right (Or.imp_right ?_)
    rintro ⟨ref, href, hle⟩
    exact ⟨ref, (hk member key hl).trans href, hle⟩

/-! ## Runs -/

variable {next : Family Member Gen Key Plane}

theorem atStage_eq_some {stage : PublishStage}
    {act : Publisher Member Gen Key → Family Member Gen Key Plane}
    (h : family.atStage id stage act = some next) :
    ∃ publisher, family.publishers.find? id = some publisher ∧ publisher.stage = stage ∧
      act publisher = next := by
  unfold atStage at h
  split at h
  · next publisher hf =>
      split_ifs at h with hs
      exact ⟨publisher, hf, hs, some.inj h⟩
  · cases h

variable [DecidableEq Member] [DecidableEq Gen] [DecidableEq Key] [DecidableEq Plane]

variable {event : Event Member Gen Key}

theorem Safe.step (h : Safe layout family) (hk : family.KeepsMarker event)
    (hs : family.step layout event = some next) : Safe layout next := by
  cases event with
  | register member =>
    simp only [step] at hs
    split_ifs at hs with hm
    cases hs
    exact h.register member
  | pin id member generation keys =>
    simp only [step] at hs
    split_ifs at hs with hc
    cases hs
    exact h.pin keys hc.1 hc.2.1 hc.2.2.2
  | touch id key =>
    obtain ⟨publisher, hf, hst, rfl⟩ := atStage_eq_some hs
    split_ifs with hc
    exacts [h.touched hf hst hc.1, h]
  | put id key =>
    obtain ⟨publisher, hf, hst, rfl⟩ := atStage_eq_some hs
    split_ifs with hc
    exacts [h.touched hf hst hc, h]
  | createMarker id =>
    obtain ⟨publisher, hf, hst, rfl⟩ := atStage_eq_some hs
    split_ifs with hc
    exacts [h.createMarker hf hst hc, h]
  | writeManifest id =>
    obtain ⟨publisher, hf, hst, rfl⟩ := atStage_eq_some hs
    exact h.writeManifest hf hst
  | swapPointer id =>
    obtain ⟨publisher, hf, hst, rfl⟩ := atStage_eq_some hs
    exact h.swapPointer hf hst
  | releasePins id =>
    obtain ⟨publisher, hf, hst, rfl⟩ := atStage_eq_some hs
    exact h.releasePins hf hst
  | releaseMarker id =>
    obtain ⟨publisher, hf, hst, rfl⟩ := atStage_eq_some hs
    exact h.releaseMarker hf hst (hk publisher hf)
  | abandon id =>
    simp only [step] at hs
    split at hs
    · next publisher hf =>
        split_ifs at hs with hst
        cases hs
        exact h.abandon hf hst
    · cases hs
  | startSweep =>
    simp only [step] at hs
    split at hs <;> cases hs
    exact h.setSweep _ _ _ fun plane hp => .inl hp
  | raiseStore =>
    simp only [step] at hs
    split at hs <;> cases hs
    next hsw => exact h.raiseStore hsw
  | beginMarking =>
    simp only [step] at hs
    split at hs <;> cases hs
    next hsw => exact h.beginMarking hsw
  | readPointer =>
    simp only [step] at hs
    split at hs <;> cases hs
    next hsw => exact h.readPointer hsw
  | listPins =>
    simp only [step] at hs
    split at hs <;> cases hs
    next hsw => exact h.listPins hsw
  | listMarkers =>
    simp only [step] at hs
    split at hs <;> cases hs
    next hsw => exact h.listMarkers hsw
  | beginDeleting =>
    simp only [step] at hs
    split at hs <;> cases hs
    next hsw => exact h.beginDeleting hsw
  | delete key =>
    simp only [step] at hs
    split at hs
    · next hsw =>
        split_ifs at hs with hma
        cases hs
        exact h.delete hsw hma
    · cases hs
  | finishSweep =>
    simp only [step] at hs
    split at hs <;> cases hs
    exact h.setSweep _ _ _ trivial

theorem Safe.run {events : List (Event Member Gen Key)} {family final : Family Member Gen Key Plane}
    (h : Safe layout family) (hk : family.KeepsMarkers layout events)
    (hrun : family.run layout events = some final) : Safe layout final := by
  induction events generalizing family with
  | nil =>
    cases hrun
    exact h
  | cons event rest ih =>
    obtain ⟨next, hn, hr⟩ := bind_eq_some_iff.1 hrun
    exact ih (h.step hk.1 hn) (hk.2 next hn) hr

omit [DecidableEq Member] [DecidableEq Gen] [DecidableEq Key] [DecidableEq Plane] in
theorem safe_empty (layout : Layout Key Plane) : Safe layout ({} : Family Member Gen Key Plane) := by
  refine ⟨⟨fun hf => ?_, fun hf => ?_, fun hp => ?_⟩, ?_, trivial⟩
  · cases hf
  · cases hf
  · cases hp
  · rintro member key (⟨id, publisher, hf, -⟩ | ⟨-, generation, keys, hp, -⟩)
    · cases hf
    · cases hp

/-- In every run from an empty family in which no publisher drops the marker of a still current
generation between the sweep's reading of the pointer and its listing of the markers, every live key
is stored. -/
theorem live_data_survives_sweep (layout : Layout Key Plane) (events : List (Event Member Gen Key))
    (final : Family Member Gen Key Plane)
    (hkeeps : ({} : Family Member Gen Key Plane).KeepsMarkers layout events)
    (hrun : ({} : Family Member Gen Key Plane).run layout events = some final) :
    final.LiveDataPresent :=
  ((safe_empty layout).run hkeeps hrun).present

/-- One store that holds every key. -/
def oneStore : Layout ℕ Unit := ⟨fun _ => (), [()]⟩

/-- A publication of key 7 that swaps the pointer after the sweep has read it. -/
def overtaking : List (Event ℕ ℕ ℕ) :=
  [.register 0, .pin 0 0 0 [7], .put 0 7, .createMarker 0, .writeManifest 0, .startSweep,
    .raiseStore, .beginMarking, .readPointer, .swapPointer 0, .releasePins 0]

theorem keepsMarkers_cons {rest : List (Event Member Gen Key)} (hk : family.KeepsMarker event)
    (hs : family.step layout event = some next) (hr : next.KeepsMarkers layout rest) :
    family.KeepsMarkers layout (event :: rest) :=
  ⟨hk, fun _ hn => mem_unique hs hn ▸ hr⟩

theorem live_data_survives_sweep_published :
    ∃ final : Family ℕ ℕ ℕ Unit, ({} : Family ℕ ℕ ℕ Unit).run oneStore (overtaking ++
        [.listPins, .listMarkers, .releaseMarker 0, .beginDeleting]) = some final ∧
      final.pointer 0 = some 0 ∧ final.LiveDataPresent := by
  obtain ⟨final, hrun, hpointer⟩ : ∃ final : Family ℕ ℕ ℕ Unit,
      ({} : Family ℕ ℕ ℕ Unit).run oneStore (overtaking ++
        [.listPins, .listMarkers, .releaseMarker 0, .beginDeleting]) = some final ∧
      final.pointer 0 = some 0 := ⟨_, rfl, by decide +kernel⟩
  refine ⟨final, hrun, hpointer, live_data_survives_sweep oneStore _ final ?_ hrun⟩
  iterate 13 refine keepsMarkers_cons trivial rfl ?_
  refine keepsMarkers_cons (fun _ _ _ hbetween => hbetween) rfl ?_
  exact keepsMarkers_cons trivial rfl trivial

/-- The publisher releases its pin and its marker before the sweep lists them: the sweep deletes the
row of a current generation. -/
theorem sweep_deletes_current_row :
    ∃ final : Family ℕ ℕ ℕ Unit, ({} : Family ℕ ℕ ℕ Unit).run oneStore (overtaking ++
        [.releaseMarker 0, .listPins, .listMarkers, .beginDeleting, .delete 7]) = some final ∧
      final.Current 0 7 ∧ ¬ final.LiveDataPresent := by
  obtain ⟨final, hrun, hrow, hmember, hpointer, hmanifest⟩ : ∃ final : Family ℕ ℕ ℕ Unit,
      ({} : Family ℕ ℕ ℕ Unit).run oneStore (overtaking ++
        [.releaseMarker 0, .listPins, .listMarkers, .beginDeleting, .delete 7]) = some final ∧
      final.rows 7 = none ∧ 0 ∈ final.members ∧ final.pointer 0 = some 0 ∧
      final.manifest 0 = some [7] := ⟨_, rfl, by decide +kernel⟩
  have hcurrent : final.Current 0 7 := ⟨hmember, 0, [7], hpointer, hmanifest, by decide⟩
  refine ⟨final, hrun, hcurrent, fun hpresent => ?_⟩
  simpa [hrow] using hpresent 0 7 (.inr hcurrent)

end Family

end Aft.Gc
