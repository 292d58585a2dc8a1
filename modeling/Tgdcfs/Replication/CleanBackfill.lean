import Tgdcfs.Lib.Traversals
import Tgdcfs.Replication.DescriptorWriters

/-!
# Clean backfills

A backfill that reports no failure has nothing left to do: no version is
pending, and every version with content belongs to the primary and has a
complete copy in every mirror store.  The same holds of the descriptor text
that the primary has then, so the next backfill finds it so.
-/

namespace Tgdcfs

open Lib

namespace MirrorWrites

variable {writes : MirrorWrites} {storeKey : String}
  {ids others : Dict String Int}

theorem writtenTo_congr (same : ids.get? storeKey = others.get? storeKey) :
    writes.writtenTo storeKey ids = writes.writtenTo storeKey others := by
  unfold writtenTo
  rw [same]

theorem sendTo_get? {after : Dict String Int}
    (done : writes.sendTo storeKey ids = some after) (other : String) :
    after.get? other =
      if other = storeKey then (writes.send storeKey).or (ids.get? storeKey)
      else ids.get? other := by
  unfold sendTo at done
  cases sent : writes.send storeKey with
  | some messageId =>
      rw [sent] at done
      cases done
      rw [Dict.get?_set]
      rfl
  | none =>
      rw [sent] at done
      dsimp only at done
      split at done
      · cases done
      · cases done
        split
        · rename_i same
          rw [same]
          rfl
        · rfl

/-- A store that takes the text is recorded with the message that has it. -/
theorem writeTo_get? {after : Dict String Int}
    (done : writes.writeTo storeKey ids = some after) (other : String) :
    after.get? other =
      if other = storeKey then
        (writes.writtenTo storeKey ids).or (ids.get? storeKey)
      else ids.get? other := by
  unfold writeTo at done
  unfold writtenTo
  revert done
  cases (ids.get? storeKey).filter (· ≠ 0) with
  | none =>
      intro done
      exact sendTo_get? done other
  | some messageId =>
      intro done
      dsimp only at done ⊢
      cases edited : writes.edit storeKey messageId with
      | edited taken =>
          rw [edited] at done
          cases done
          rw [Dict.get?_set]
          rfl
      | notFound =>
          rw [edited] at done
          exact sendTo_get? done other
      | raised =>
          rw [edited] at done
          dsimp only at done
          split at done
          · cases done
          · cases done
            split
            · rename_i same
              rw [same]
              rfl
            · rfl

theorem mirrorFd_get? {keys : List String} {mirrors : Dict String Int}
    (distinct : keys.Nodup) (done : writes.mirrorFd keys ids = some mirrors)
    (key : String) :
    mirrors.get? key =
      if key ∈ keys then (writes.writtenTo key ids).or (ids.get? key)
      else ids.get? key := by
  induction keys generalizing ids with
  | nil =>
      cases done
      rfl
  | cons first rest induction =>
      rw [List.nodup_cons] at distinct
      unfold mirrorFd at done
      obtain ⟨next, wrote, later⟩ := Option.bind_eq_some_iff.mp done
      rw [induction distinct.2 later]
      have here := writeTo_get? wrote
      by_cases same : key = first
      · subst same
        rw [if_neg distinct.1, if_pos List.mem_cons_self, here, if_pos rfl]
      · have unmoved : next.get? key = ids.get? key := by
          rw [here, if_neg same]
        rw [unmoved, writtenTo_congr unmoved]
        simp [same]

end MirrorWrites

namespace BackfillClient

variable {client : BackfillClient} {answers : BackfillAnswers}

/-- Nothing is left to do for a version. -/
structure Done (client : BackfillClient) (version : TGFSFileVersion) :
    Prop where
  pending : version.pending = false
  owned : version.isValid = true →
    version.ownedBy client.repo.key = true
  copies : version.isValid = true → ∀ key ∈ client.mirrorKeys,
    version.hasCopyIn key = true

variable {version : TGFSFileVersion}

theorem Done.of_sameCopies {other : TGFSFileVersion}
    (done : client.Done version)
    (same : TGFSFileVersion.SameCopies version other) : client.Done other := by
  refine ⟨same.pending.trans done.pending, ?_, ?_⟩
  · intro valid
    rw [same.ownedBy]
    exact done.owned (same.isValid ▸ valid)
  · intro valid key member
    rw [same.copies]
    exact done.copies (same.isValid ▸ valid) key member

/-- A version that stays as it is or gives up copies was done before. -/
theorem Done.of_verifyVersion
    (done : client.Done (client.verifyVersion answers version)) :
    client.Done version :=
  ⟨done.pending, done.owned, fun valid key member =>
    hasCopyIn_of_verifyVersion (done.copies valid key member)⟩

variable {run : Backfilling}

theorem replicatePending_clean {targets : List String}
    (clean : (replicatePending answers targets version
      run).2.1.report.failures = []) : run.report.failures = [] := by
  induction targets generalizing version run with
  | nil => exact clean
  | cons key rest induction =>
      unfold replicatePending at clean
      cases taken : answers.replicateLocal version.id key with
      | none =>
          rw [taken] at clean
          exact absurd (induction clean) (by simp [Backfilling.failed])
      | some replica =>
          rw [taken] at clean
          exact @induction _ run clean

/-- Where a version stands once a pending one was handled without a
failure. -/
def Handled (client : BackfillClient) (versionIds : List String)
    (before after : Backfilling) : Prop :=
  ∀ versionId version,
    after.desc.versions.get? versionId = some version →
      versionId ∉ versionIds ∧
          before.desc.versions.get? versionId = some version ∨
        version.pending = false ∧ version.ownedBy client.repo.key = true

variable {changed : Bool}

theorem distributePending_clean {after : Backfilling}
    (done : client.distributePending answers version run =
      .ok (after, changed)) (clean : after.report.failures = []) :
    run.report.failures = [] ∧ client.Handled [version.id] run after := by
  unfold distributePending at done
  cases cached : answers.cached version.id with
  | none =>
      rw [cached] at done
      dsimp only at done
      cases deletes : run.desc.deleteVersion version.id with
      | error failure =>
          rw [deletes] at done
          cases done
      | ok desc =>
          rw [deletes] at done
          cases done
          obtain ⟨versions, _⟩ := TGFSFileDesc.deleteVersion_ok deletes
          refine ⟨clean, ?_⟩
          intro versionId other found
          dsimp only at found
          rw [versions, Dict.get?_erase] at found
          split at found
          · cases found
          · rename_i different
            exact .inl ⟨by simpa using different, found⟩
  | some size =>
      rw [cached] at done
      dsimp only at done
      let targets := client.mirrorKeys.filter fun key =>
        client.needsReplica key (answers.planParts size) &&
          !version.hasCopyIn key
      let tried := run.attempted version.id (client.repo.key :: targets)
      obtain ⟨replicas, filled, _, _, _, _, desc⟩ :=
        @replicatePending_spec answers targets version tried
      cases uploaded : answers.uploadPrimary version.id with
      | none =>
          rw [uploaded] at done
          cases done
          exact absurd clean (by
            simp [Backfilling.setVersion, Backfilling.failed])
      | some sent =>
          rw [uploaded] at done
          cases done
          refine ⟨@replicatePending_clean answers version tried targets clean,
            ?_⟩
          intro versionId other found
          rw [filled] at found
          dsimp only [Backfilling.setVersion] at found
          rw [desc, Dict.get?_set] at found
          split at found
          · cases found
            exact .inr ⟨rfl, TGFSFileVersion.ownedBy_iff.mpr (.inr rfl)⟩
          · rename_i different
            refine .inl ⟨?_, found⟩
            intro member
            exact different (List.mem_singleton.mp member)

theorem distributeAll_cons {rest : List TGFSFileVersion} {after : Backfilling}
    (done : client.distributeAll answers (version :: rest) run =
      .ok (after, changed)) :
    ∃ middle first later,
      client.distributePending answers version run = .ok (middle, first) ∧
      client.distributeAll answers rest middle = .ok (after, later) ∧
      changed = (first || later) := by
  unfold distributeAll at done
  obtain ⟨middle, first, done⟩ := bind_ok done
  obtain ⟨last, later, done⟩ := bind_ok done
  cases done
  exact ⟨_, _, _, first, later, rfl⟩

theorem mirrorVersions_cons {rest : List TGFSFileVersion} {after : Backfilling}
    (done : client.mirrorVersions answers (version :: rest) run =
      .ok (after, changed)) :
    ∃ middle first later,
      client.mirrorVersion answers version run = .ok (middle, first) ∧
      client.mirrorVersions answers rest middle = .ok (after, later) ∧
      changed = (first || later) := by
  unfold mirrorVersions at done
  obtain ⟨middle, first, done⟩ := bind_ok done
  obtain ⟨last, later, done⟩ := bind_ok done
  cases done
  exact ⟨_, _, _, first, later, rfl⟩

variable {versions : List TGFSFileVersion}

theorem distributeAll_clean {after : Backfilling}
    (done : client.distributeAll answers versions run =
      .ok (after, changed)) (clean : after.report.failures = []) :
    run.report.failures = [] ∧
      client.Handled (versions.map TGFSFileVersion.id) run after := by
  induction versions generalizing run changed with
  | nil =>
      cases done
      exact ⟨clean, fun versionId version found =>
        .inl ⟨List.not_mem_nil, found⟩⟩
  | cons version rest induction =>
      obtain ⟨middle, _, _, first, later, _⟩ := distributeAll_cons done
      obtain ⟨cleanMiddle, handledRest⟩ := induction later
      obtain ⟨cleanRun, handled⟩ :=
        distributePending_clean first cleanMiddle
      refine ⟨cleanRun, ?_⟩
      intro versionId other found
      rcases handledRest versionId other found with
        ⟨notRest, there⟩ | settled
      · rcases handled versionId other there with
          ⟨notFirst, here⟩ | settled
        · refine .inl ⟨?_, here⟩
          rw [List.map_cons, List.mem_cons, not_or]
          exact ⟨by simpa using notFirst, notRest⟩
        · exact .inr settled
      · exact .inr settled

theorem promote_failures
    (clean : (client.promote answers version run).2.1.report.failures =
      []) : run.report.failures = [] := by
  unfold promote at clean
  split at clean
  · exact clean
  · dsimp only at clean
    split at clean
    · exact absurd clean (by simp [Backfilling.failed])
    · exact absurd clean (by simp [Backfilling.failed])
    · exact clean

theorem mirrorVersion_failures {after : Backfilling}
    (done : client.mirrorVersion answers version run = .ok (after, changed))
    (clean : after.report.failures = []) : run.report.failures = [] := by
  have before := @promote_failures client answers version
    { run with report :=
      { run.report with
        versionsChecked := run.report.versionsChecked + 1 } }
  unfold mirrorVersion at done
  dsimp only at done
  revert before done
  generalize client.promote answers version _ = promoted
  obtain ⟨moved, next, copiedHere⟩ := promoted
  intro done before
  dsimp only at done before
  split at done
  · cases done
    exact before clean
  · split at done
    · cases done
    · cases done
      apply before
      split at clean
      · split at clean
        · exact clean
        · exact clean
      · exact absurd clean (by simp [Backfilling.failed])

theorem mirrorVersions_failures {after : Backfilling}
    (done : client.mirrorVersions answers versions run =
      .ok (after, changed)) (clean : after.report.failures = []) :
    run.report.failures = [] := by
  induction versions generalizing run changed with
  | nil =>
      cases done
      exact clean
  | cons version rest induction =>
      obtain ⟨middle, _, _, first, later, _⟩ := mirrorVersions_cons done
      exact mirrorVersion_failures first (induction later)

theorem promote_clean (valid : version.isValid = true)
    (clean : (client.promote answers version run).2.1.report.failures =
      []) :
    (client.promote answers version run).1.pending = version.pending ∧
      (client.promote answers version run).1.isValid = true ∧
      (client.promote answers version run).1.ownedBy client.repo.key =
        true ∧
      ((client.promote answers version run).2.2 = false →
        (client.promote answers version run).1 = version) := by
  unfold promote at clean ⊢
  cases owned : version.ownedBy client.repo.key with
  | true =>
      rw [owned, if_pos rfl] at clean
      exact ⟨rfl, valid, owned, fun _ => rfl⟩
  | false =>
      rw [owned, if_neg Bool.false_ne_true] at clean
      rw [if_neg Bool.false_ne_true]
      dsimp only at clean ⊢
      cases copied : client.copyIntoPrimary answers version with
      | none =>
          rw [copied] at clean
          exact absurd clean (by simp [Backfilling.failed])
      | some moved =>
          rw [copied] at clean
          obtain ⟨moved, owns⟩ := moved
          cases owns with
          | false => exact absurd clean (by simp [Backfilling.failed])
          | true =>
              have promotes := copyIntoPrimary_promotes owned copied
              refine ⟨promotes.pending, promotes.valid, promotes.owned, ?_⟩
              intro unchanged
              cases unchanged

/-- A version that was given its copies without a failure has them all. -/
theorem mirrorVersion_clean {after : Backfilling}
    (valid : version.isValid = true) (pending : version.pending = false)
    (done : client.mirrorVersion answers version run = .ok (after, changed))
    (clean : after.report.failures = []) :
    ∃ mirrored, after.desc.versions.get? version.id = some mirrored ∧
      client.Done mirrored ∧ mirrored.isValid = true ∧
      (changed = false → mirrored = version) := by
  have named := (@promote_spec client answers version
    { run with report :=
      { run.report with
        versionsChecked := run.report.versionsChecked + 1 } }).1
  have promotes := @promote_clean client answers version
    { run with report :=
      { run.report with
        versionsChecked := run.report.versionsChecked + 1 } } valid
  unfold mirrorVersion at done
  dsimp only at done
  revert named promotes done
  generalize client.promote answers version _ = promoted
  obtain ⟨moved, next, copiedHere⟩ := promoted
  intro done named promotes
  dsimp only at named promotes done
  have place : ∀ other : TGFSFileVersion, other.id = version.id →
      (next.setVersion other).desc.versions.get? version.id =
        some other := by
    intro other same
    rw [Backfilling.setVersion, Dict.get?_set, if_pos same.symm]
  split at done
  · rename_i nothing
    cases done
    dsimp only [Backfilling.setVersion] at clean
    obtain ⟨settled, content, owned, same⟩ := promotes clean
    have complete : client.missingStores moved = [] := by
      simpa [owned] using nothing
    refine ⟨moved, place moved named, ?_, content, same⟩
    refine ⟨settled.trans pending, fun _ => owned, ?_⟩
    intro _ key member
    by_contra without
    have listed : key ∈ client.missingStores moved :=
      List.mem_filter.mpr ⟨member, by simpa using without⟩
    rw [complete] at listed
    cases listed
  · rename_i undone
    cases copies : client.mirrorParts answers moved
        (client.missingStores moved) with
    | none =>
        rw [copies] at done
        cases done
    | some made =>
        rw [copies] at done
        dsimp only at done
        by_cases still : (client.missingStores moved).filter
            (!made.storeKeys.contains ·) = []
        · rw [if_pos still] at done
          have all : ∀ key ∈ client.missingStores moved,
              key ∈ made.storeKeys := by
            intro key member
            by_contra outside
            exact List.filter_eq_nil_iff.mp still key member
              (by simpa using outside)
          have complete := mirrorParts_complete copies
          have covered : ∀ key ∈ client.mirrorKeys,
              (made.applyTo moved).hasCopyIn key = true := by
            intro key member
            by_cases here : moved.hasCopyIn key = true
            · exact complete.keeps here
            · exact complete.adds (all key
                (List.mem_filter.mpr ⟨member, by simpa using here⟩))
          have outcome : after.desc.versions.get? version.id =
                some (made.applyTo moved) ∧
              after.report.failures = next.report.failures ∧
              changed = (copiedHere || decide (made.storeKeys ≠ [])) := by
            split at done
            · cases done
              exact ⟨place _ named, rfl, rfl⟩
            · cases done
              exact ⟨place _ named, rfl, rfl⟩
          obtain ⟨found, failures, flag⟩ := outcome
          rw [failures] at clean
          obtain ⟨settled, content, owned, _⟩ := promotes clean
          refine ⟨_, found, ⟨settled.trans pending,
            fun _ => owned, fun _ => covered⟩, content, ?_⟩
          intro unchanged
          rw [unchanged] at flag
          have empty : made.storeKeys = [] := by
            by_contra copied
            simp [copied] at flag
          have nothing : client.missingStores moved = [] := by
            rw [List.eq_nil_iff_forall_not_mem]
            intro key member
            have inside := all key member
            rw [empty] at inside
            cases inside
          rw [nothing] at undone
          exact absurd rfl undone
        · rw [if_neg still] at done
          cases done
          exact absurd clean (by simp [Backfilling.failed])

/-- What a clean pass over versions leaves of a descriptor. -/
structure Mirrored (client : BackfillClient)
    (versions : List TGFSFileVersion) (before after : Backfilling)
    (changed : Bool) : Prop where
  done : ∀ versionId version,
    after.desc.versions.get? versionId = some version →
      versionId ∉ versions.map TGFSFileVersion.id ∧
          before.desc.versions.get? versionId = some version ∨
        client.Done version ∧ version.isValid = true
  same : changed = false → ∀ versionId,
    after.desc.versions.get? versionId =
      before.desc.versions.get? versionId

theorem mirrorVersions_clean {after : Backfilling}
    (valid : ∀ version ∈ versions,
      version.isValid = true ∧ version.pending = false)
    (found : ∀ version ∈ versions,
      run.desc.versions.get? version.id = some version)
    (distinct : (versions.map TGFSFileVersion.id).Nodup)
    (done : client.mirrorVersions answers versions run =
      .ok (after, changed)) (clean : after.report.failures = []) :
    client.Mirrored versions run after changed := by
  induction versions generalizing run changed with
  | nil =>
      cases done
      exact ⟨fun versionId version found =>
        .inl ⟨List.not_mem_nil, found⟩, fun _ _ => rfl⟩
  | cons version rest induction =>
      obtain ⟨middle, firstChanged, laterChanged, first, later, rfl⟩ :=
        mirrorVersions_cons done
      obtain ⟨content, settled⟩ := valid version List.mem_cons_self
      have here := found version List.mem_cons_self
      have others := (mirrorVersion_phase here).2 middle firstChanged first
      rw [List.map_cons, List.nodup_cons] at distinct
      have foundRest : ∀ other ∈ rest,
          middle.desc.versions.get? other.id = some other := by
        intro other member
        rw [others other.id]
        · exact found other (List.mem_cons_of_mem version member)
        · intro same
          exact distinct.1 (same ▸ List.mem_map_of_mem member)
      have mirrored := induction
        (fun other member => valid other (List.mem_cons_of_mem version member))
        foundRest distinct.2 later
      obtain ⟨state, now, isDone, isValid, unchanged⟩ :=
        mirrorVersion_clean content settled first
          (mirrorVersions_failures later clean)
      constructor
      · intro versionId other there
        rcases mirrored.done versionId other there with
          ⟨notRest, before⟩ | isDone
        · by_cases same : versionId = version.id
          · rw [same, now] at before
            cases before
            exact .inr ⟨isDone, isValid⟩
          · refine .inl ⟨?_, ?_⟩
            · rw [List.map_cons, List.mem_cons, not_or]
              exact ⟨same, notRest⟩
            · rw [← others versionId same]
              exact before
        · exact .inr isDone
      · intro nothing versionId
        obtain ⟨firstFalse, laterFalse⟩ := Bool.or_eq_false_iff.mp nothing
        rw [mirrored.same laterFalse versionId]
        by_cases same : versionId = version.id
        · rw [same, now, here, unchanged firstFalse]
        · exact others versionId same

open TGFSFileVersion in
/-- A version that is done stays so when it is read from its text. -/
theorem Done.relocate (done : client.Done version)
    (inert : version.Inert client.repo.key) :
    client.Done (version.relocate client.repo.key) := by
  cases valid : version.isValid with
  | true =>
      rw [relocate_owned (done.owned valid)]
      exact done
  | false =>
      have never : ∀ {P : Prop},
          (version.relocate client.repo.key).isValid = true → P := by
        intro P content
        rw [inert.relocate valid] at content
        cases content
      exact ⟨(relocate_pending _ _).trans done.pending, never, never⟩

open TGFSFileVersion in
theorem Done.stamp (done : client.Done version) :
    client.Done (FDRepository.stampVersion client.repo.key version) := by
  rcases stampVersion_cases client.repo.key version with
    ⟨unowned, stamped⟩ | same
  · rw [stamped]
    refine ⟨done.pending, fun _ => ownedBy_iff.mpr (.inr rfl), ?_⟩
    intro valid key member
    have copied := done.copies valid key member
    simp only [hasCopyIn, Bool.or_eq_true] at copied ⊢
    rcases copied with (owned | mirrored) | replicated
    · rw [unowned] at owned
      simp at owned
    · exact .inl (.inr mirrored)
    · exact .inr replicated
  · rw [same]
    exact done

open TGFSFileVersion in
theorem inert_stamp {key : String} (inert : version.Inert key) :
    (FDRepository.stampVersion key version).Inert key := by
  rcases stampVersion_cases key version with ⟨_, stamped⟩ | same
  · rw [stamped]
    exact fun _ => .inl (ownedBy_iff.mpr (.inr rfl))
  · rw [same]
    exact inert

open TGFSFileVersion in
theorem inert_reread {key : String} (normal : version.Normal)
    (inert : version.Inert key) : version.reread.Inert key := by
  obtain ⟨same, replicas⟩ := normal.reread
  intro invalid
  rw [same.isValid] at invalid
  rw [same.ownedBy, replicas]
  exact inert invalid

/-- Every version in the stored text is done once its state in memory is. -/
def Backs (client : BackfillClient) (state : BackfillState)
    (desc : TGFSFileDesc) : Prop :=
  ∀ versionId stored, state.versions.get? versionId = some stored →
    ∃ version, desc.versions.get? versionId = some version ∧
      (client.Done version → client.Done
        (stored.relocate client.repo.key))

/-- What a backfill relies on between its parts. -/
structure Ready (client : BackfillClient) (run : Backfilling) : Prop where
  primary : run.state.InPrimary client
  reads : run.state.Reads
  keyed : run.desc.Keyed
  normal : run.desc.AllNormal
  inert : ∀ versionId version,
    run.desc.versions.get? versionId = some version →
      version.Inert client.repo.key
  backs : client.Backs run.state run.desc

theorem Committed.ready {after : Backfilling}
    (committed : Committed client run after)
    (primary : run.state.InPrimary client) (keyed : run.desc.Keyed)
    (normal : run.desc.AllNormal)
    (inert : ∀ versionId version,
      run.desc.versions.get? versionId = some version →
        version.Inert client.repo.key) : client.Ready after := by
  have stamped : ∀ versionId version,
      after.desc.versions.get? versionId = some version →
        ∃ source, run.desc.versions.get? versionId = some source ∧
          FDRepository.stampVersion client.repo.key source = version := by
    intro versionId version found
    rw [committed.desc, FDRepository.stamp, Dict.get?_mapValues] at found
    exact Option.map_eq_some_iff.mp found
  refine ⟨committed.stays.primary primary, committed.reads, ?_, ?_, ?_, ?_⟩
  · rw [committed.desc]
    exact FDRepository.stamp_keyed keyed
  · intro versionId version found
    obtain ⟨source, there, rfl⟩ := stamped versionId version found
    exact (normal versionId source there).stampVersion client.repo.key_normal
  · intro versionId version found
    obtain ⟨source, there, rfl⟩ := stamped versionId version found
    exact inert_stamp (inert versionId source there)
  · intro versionId stored found
    rw [committed.versions] at found
    obtain ⟨source, there, rfl⟩ := Option.map_eq_some_iff.mp found
    refine ⟨FDRepository.stampVersion client.repo.key source, ?_, ?_⟩
    · rw [committed.desc, FDRepository.stamp, Dict.get?_mapValues, there,
        Option.map_some]
    · intro done
      have wellKept := (normal versionId source there).stampVersion
        client.repo.key_normal
      exact (done.of_sameCopies wellKept.reread.1).relocate
        (inert_reread wellKept (inert_stamp (inert versionId source there)))

/-- The answers of one backfill read the text that was stored last, and find
every version that the text names. -/
structure Finds (client : BackfillClient) (answers : BackfillAnswers)
    (state : BackfillState) : Prop where
  text : answers.lookups = storedAnswers state.texts answers.lookups
  whole : ∀ text desc,
    state.texts.get? state.file.messageId = some text →
      TGFSFileDesc.fromDict text state.file.name ⟨0, false⟩ = .ok desc →
        client.repo.readsWhole answers.lookups true
          (client.repo.relocateVersions desc) = true

theorem readsWhole_congr {desc other : TGFSFileDesc} {lookups : Answers}
    (same : desc.versions = other.versions) :
    client.repo.readsWhole lookups true (client.repo.relocateVersions desc) =
      client.repo.readsWhole lookups true
        (client.repo.relocateVersions other) := by
  simp only [FDRepository.readsWhole, FDRepository.primaryIds,
    FDRepository.relocateVersions, same]

open TGFSFileVersion in
theorem sameCopies_validateVersion {repo : FDRepository} {lookups : Answers}
    {messages : Dict Int StoredMessage} (valid : version.isValid = true)
    (found : repo.located lookups messages version = true) :
    SameCopies version (repo.validateVersion lookups messages version) := by
  apply FDRepository.validateVersion_valid
  rw [isValid, FDRepository.validateVersion_messageIds found]
  exact valid

open TGFSFileVersion in
theorem SameCopies.symm {other : TGFSFileVersion}
    (same : SameCopies version other) : SameCopies other version :=
  ⟨same.messageIds.symm, same.store.symm, same.pending.symm,
    fun key => (same.copies key).symm⟩

variable {state : BackfillState} {now : DateTime} {served : TGFSFileDesc}

/-- A read that finds everything hands out what the text records. -/
theorem read_kept (primary : state.InPrimary client) (reads : state.Reads)
    (finds : client.Finds answers state)
    (got : client.repo.get answers.lookups state.file true true now =
      .ok served) :
    (∀ versionId stored, state.versions.get? versionId = some stored →
      ∃ kept, served.versions.get? versionId = some kept ∧
        TGFSFileVersion.SameCopies (stored.relocate client.repo.key) kept ∧
        kept.Inert client.repo.key) ∧
    ∀ versionId kept, served.versions.get? versionId = some kept →
      ∃ stored, state.versions.get? versionId = some stored := by
  obtain ⟨text, again, stored, readAgain⟩ := reads
  obtain ⟨recorded, parsed, same⟩ := @TGFSFileDesc.fromDict_versions text
    state.file.name state.file.name ⟨0, false⟩ now again readAgain
  have whole := finds.whole text again stored readAgain
  rw [← readsWhole_congr same] at whole
  have read : client.repo.getFdText answers.lookups
      (state.file.relocate client.repo.key) = some text := by
    rw [finds.text]
    exact DescriptorState.getFdText_stored primary stored
  rw [BackfillState.versions_of_stored stored readAgain, ← same]
  constructor
  · intro versionId version found
    obtain ⟨messages, kept, there, how⟩ :=
      FDRepository.get_located read parsed whole got found
    refine ⟨kept, there, ?_⟩
    rcases how with rfl | ⟨rfl, valid, isLocated⟩
    · exact ⟨⟨rfl, rfl, rfl, fun _ => rfl⟩,
        TGFSFileVersion.relocate_inert version client.repo.key⟩
    · have copies := sameCopies_validateVersion valid isLocated
      refine ⟨copies, TGFSFileVersion.inert_of_isValid ?_⟩
      rw [copies.isValid]
      exact valid
  · intro versionId kept found
    exact FDRepository.get_recorded read parsed got found

theorem read_ready (primary : state.InPrimary client) (reads : state.Reads)
    (finds : client.Finds answers state)
    (got : client.repo.get answers.lookups state.file true true now =
      .ok served) (run : Backfilling) (sameState : run.state = state)
    (desc : run.desc = served) : client.Ready run := by
  obtain ⟨each, recorded⟩ := read_kept primary reads finds got
  refine ⟨sameState ▸ primary, sameState ▸ reads, ?_, ?_, ?_, ?_⟩
  · rw [desc]
    exact (FDRepository.get_pointed got).keyed
  · rw [desc]
    exact FDRepository.get_normal got
  · intro versionId version found
    rw [desc] at found
    obtain ⟨stored, there⟩ := recorded versionId version found
    obtain ⟨kept, here, _, inert⟩ := each versionId stored there
    rw [found] at here
    cases here
    exact inert
  · intro versionId stored found
    rw [sameState] at found
    obtain ⟨kept, there, copies, _⟩ := each versionId stored found
    rw [desc]
    exact ⟨kept, there, fun done =>
      done.of_sameCopies (SameCopies.symm copies)⟩

/-- With a mirror group a descriptor that is stored is read. -/
theorem read_ok (now : DateTime) (mirrored : client.repo.mirrorKeys ≠ none)
    (primary : state.InPrimary client) (reads : state.Reads)
    (finds : client.Finds answers state) :
    ∃ served, client.repo.get answers.lookups state.file true true now =
      .ok served := by
  obtain ⟨text, again, stored, readAgain⟩ := reads
  obtain ⟨recorded, parsed, _⟩ := @TGFSFileDesc.fromDict_versions text
    state.file.name state.file.name ⟨0, false⟩ now again readAgain
  have read : client.repo.getFdText answers.lookups
      (state.file.relocate client.repo.key) = some text := by
    rw [finds.text]
    exact DescriptorState.getFdText_stored primary stored
  obtain ⟨keys, group⟩ := Option.ne_none_iff_exists'.mp mirrored
  unfold FDRepository.get
  rw [read]
  dsimp only
  rw [parsed]
  dsimp only
  rw [if_pos rfl, FDRepository.validateFv, group]
  simp

theorem distributePending_changes {after : Backfilling}
    (done : client.distributePending answers version run =
      .ok (after, false)) : after.report.failures ≠ [] := by
  unfold distributePending at done
  cases cached : answers.cached version.id with
  | none =>
      rw [cached] at done
      dsimp only at done
      split at done
      · cases done
      · cases done
  | some size =>
      rw [cached] at done
      dsimp only at done
      split at done
      · have same := congrArg Prod.fst (Except.ok.inj done)
        dsimp only at same
        rw [← same]
        simp [Backfilling.setVersion, Backfilling.failed]
      · cases done

theorem distributeAll_unchanged {after : Backfilling}
    (done : client.distributeAll answers versions run = .ok (after, false))
    (clean : after.report.failures = []) : versions = [] := by
  cases versions with
  | nil => rfl
  | cons version rest =>
      obtain ⟨middle, flag, _, first, later, flags⟩ := distributeAll_cons done
      obtain ⟨rfl, _⟩ := Bool.or_eq_false_iff.mp flags.symm
      exact absurd (distributeAll_clean later clean).1
        (distributePending_changes first)

theorem saveDescriptor_report {answers : SaveAnswers} {after : Backfilling}
    (done : client.saveDescriptor answers run = .ok after) :
    after.report = run.report := by
  unfold saveDescriptor at done
  dsimp only at done
  split at done
  · cases done
  · split at done
    · cases done
    · split at done
      · cases done
      · cases done
        rfl

theorem Ready.distribute {after : Backfilling} (ready : client.Ready run)
    (done : client.distribute answers run = .ok after)
    (clean : after.report.failures = []) :
    client.Ready after ∧ ∀ versionId version,
        after.desc.versions.get? versionId = some version →
          version.pending = false := by
  have phase := @distributeAll_pending client answers run ready.keyed
  unfold BackfillClient.distribute at done
  obtain ⟨⟨middle, changed⟩, all, done⟩ := bind_ok done
  dsimp only at done
  have carries := phase.returned middle changed all
  -- A version that was pending is among those that were handled.
  have settles : client.Handled ((run.desc.versions.values.filter
        TGFSFileVersion.pending).map TGFSFileVersion.id) run middle →
      ∀ versionId version,
        middle.desc.versions.get? versionId = some version →
          version.pending = false ∧
            version.Inert client.repo.key := by
    intro handled versionId version found
    rcases handled versionId version found with
      ⟨notListed, before⟩ | ⟨settled, owned⟩
    · refine ⟨?_, ready.inert versionId version before⟩
      cases pending : version.pending with
      | false => rfl
      | true =>
          have listed := (Dict.mem_values_iff _ _).mpr
            ⟨versionId, before⟩
          have named := ready.keyed _
            ((Dict.get?_eq_some_iff _ _ _).mp before)
          exact absurd (List.mem_map.mpr ⟨version,
            List.mem_filter.mpr ⟨listed, pending⟩, named⟩) notListed
    · exact ⟨settled, fun _ => .inl owned⟩
  cases changed with
  | false =>
      have same : middle = after := by simpa using done
      rw [← same] at clean ⊢
      have handled := (distributeAll_clean all clean).2
      have nothing := distributeAll_unchanged all clean
      rw [nothing] at all
      cases all
      refine ⟨ready, ?_⟩
      intro versionId version found
      exact (settles handled versionId version found).1
  | true =>
      rw [if_pos rfl] at done
      rw [saveDescriptor_report done] at clean
      have handled := (distributeAll_clean all clean).2
      have primary : middle.state.InPrimary client :=
        carries.state ▸ ready.primary
      have keyed := carries.keyed ready.keyed
      rcases @saveDescriptor_cases client answers.distributed middle
          primary keyed with ⟨failed, raised, _⟩ | committed
      · rw [raised] at done
        cases done
      · rw [done] at committed
        refine ⟨committed.ready primary keyed
          (carries.normal ready.normal)
          (fun versionId version found =>
            (settles handled versionId version found).2), ?_⟩
        intro versionId version found
        have desc : after.desc = _ := committed.desc
        rw [desc, FDRepository.stamp, Dict.get?_mapValues] at found
        obtain ⟨source, there, rfl⟩ := Option.map_eq_some_iff.mp found
        have settled := (settles handled versionId source there).1
        rcases TGFSFileVersion.stampVersion_cases client.repo.key source
          with ⟨_, stamped⟩ | same
        · rw [stamped]
          exact settled
        · rw [same]
          exact settled

/-- A save that returns goes store by store: one that takes the text is
recorded with the message that holds it, and the others are as before. -/
theorem saveDescriptor_mirrors {answers : SaveAnswers} {after : Backfilling}
    (mirrored : client.repo.mirrorKeys ≠ none)
    (done : client.saveDescriptor answers run = .ok after) :
    ∃ save, after.saves = run.saves ++ [save] ∧
      save.writes = answers.writes client.strict ∧
      ∀ key ∈ client.mirrorKeys, after.state.file.mirrors.get? key =
        (save.writes.writtenTo key save.existing).or
          (save.existing.get? key) := by
  obtain ⟨keys, group⟩ := Option.ne_none_iff_exists'.mp mirrored
  have listed : client.mirrorKeys = keys := by
    rw [mirrorKeys, group]
    rfl
  have distinct : client.mirrorKeys.Nodup := client.keys_distinct
  unfold saveDescriptor at done
  dsimp only at done
  cases written : (client.repo.stamp run.desc).toDict with
  | error failure =>
      rw [written] at done
      cases done
  | ok text =>
      rw [written] at done
      dsimp only at done
      split at done
      · cases done
      · let existing := client.repo.existingMirrors run.state.texts
          (some run.state.file)
        have wrote : ∀ resp, (client.repo.save run.state.texts run.desc
            (some run.state.file) answers.fresh
            (answers.writes client.strict)).2 = .ok resp →
              (answers.writes client.strict).mirrorFd client.mirrorKeys
                existing = some resp.mirrors := by
          intro resp saved
          unfold FDRepository.save at saved
          dsimp only at saved
          rw [written] at saved
          dsimp only at saved
          rw [group, Option.map_some, Option.getD_some, ← listed] at saved
          cases mirrors : (answers.writes client.strict).mirrorFd
              client.mirrorKeys existing with
          | none =>
              rw [mirrors] at saved
              cases saved
          | some found =>
              rw [mirrors] at saved
              cases saved
              rfl
        revert wrote
        generalize client.repo.save run.state.texts run.desc
          (some run.state.file) answers.fresh
          (answers.writes client.strict) = saved at done ⊢
        intro wrote
        cases result : saved.2 with
        | error failure =>
            rw [result] at done
            cases done
        | ok resp =>
            rw [result] at done
            cases done
            have mirrors := wrote resp result
            refine ⟨_, rfl, rfl, ?_⟩
            intro key member
            exact (MirrorWrites.mirrorFd_get? distinct mirrors key).trans
              (if_pos member)

/-- Nothing is left to do for the file: what its descriptor text records of
every version is done, and every mirror store has the text. -/
structure Settled (client : BackfillClient) (state : BackfillState) :
    Prop where
  primary : state.InPrimary client
  reads : state.Reads
  versions : ∀ versionId stored,
    state.versions.get? versionId = some stored →
      client.Done (stored.relocate client.repo.key)
  mirrors : client.fdMissing state.file = []

/-- Every mirror store took every text that was saved. -/
def TakenByAll (client : BackfillClient) (saves : List DescriptorSave) :
    Prop :=
  ∀ save ∈ saves, ∀ key ∈ client.mirrorKeys,
    (save.writes.writtenTo key save.existing).isSome = true

theorem writtenTo_pos {answers : SaveAnswers} {strict : Bool} {key : String}
    {ids : Dict String Int} {messageId : Int}
    (took : (answers.writes strict).writtenTo key ids = some messageId) :
    0 < messageId := by
  have sends : ∀ {other}, ((answers.writes strict).send key) = some other →
      0 < other := by
    intro other sent
    obtain ⟨id, _, rfl⟩ := Option.map_eq_some_iff.mp sent
    exact id.property
  unfold MirrorWrites.writtenTo at took
  split at took
  · exact sends took
  · split at took
    · rename_i taken edited
      cases took
      unfold SaveAnswers.writes at edited
      dsimp only at edited
      split at edited
      · rename_i id _
        cases edited
        exact id.property
      · cases edited
      · cases edited
    · exact sends took
    · cases took

theorem fdMissing_saved {answers : SaveAnswers} {after : Backfilling}
    (mirrored : client.repo.mirrorKeys ≠ none)
    (done : client.saveDescriptor answers run = .ok after)
    (taken : client.TakenByAll after.saves) :
    client.fdMissing after.state.file = [] := by
  obtain ⟨save, saves, writes, recorded⟩ :=
    saveDescriptor_mirrors mirrored done
  unfold fdMissing
  rw [List.filter_eq_nil_iff]
  intro key member
  have took := taken save (by rw [saves]; simp) key member
  obtain ⟨messageId, wrote⟩ := Option.isSome_iff_exists.mp took
  have recorded := recorded key member
  rw [wrote, Option.some_or] at recorded
  rw [writes] at wrote
  rw [recorded]
  simpa using writtenTo_pos wrote

/-- What a recheck leaves of a version. -/
structure Rechecked (client : BackfillClient)
    (source version : TGFSFileVersion) : Prop where
  pending : version.pending = source.pending
  done : client.Done version → client.Done source
  without : version.isValid = false → version = source

theorem rechecked_if :
    client.Rechecked version
      (if version.isValid then client.verifyVersion answers version
      else version) := by
  split
  · rename_i valid
    refine ⟨rfl, Done.of_verifyVersion, ?_⟩
    intro invalid
    have same : (client.verifyVersion answers version).isValid =
        version.isValid := rfl
    rw [same, valid] at invalid
    cases invalid
  · exact ⟨rfl, id, fun _ => rfl⟩

/-- Where the versions are checked again if that is asked for. -/
def recheckedRun (client : BackfillClient) (answers : BackfillAnswers)
    (verify : Bool) (run : Backfilling) : Backfilling :=
  if verify then { run with desc := client.verifyMirrors answers run.desc }
  else run

theorem recheckedRun_report (answers : BackfillAnswers) (verify : Bool)
    (run : Backfilling) :
    (client.recheckedRun answers verify run).report = run.report := by
  cases verify <;> rfl

/-- The versions of a descriptor that may have been rechecked. -/
theorem exists_rechecked (answers : BackfillAnswers) (verify : Bool)
    (run : Backfilling) :
    ∃ check : TGFSFileVersion → TGFSFileVersion,
      (∀ version, client.Rechecked version (check version)) ∧
      ∀ versionId,
        (client.recheckedRun answers verify run).desc.versions.get?
          versionId = (run.desc.versions.get? versionId).map check := by
  cases verify with
  | false =>
      refine ⟨id, fun version => ⟨rfl, id, fun _ => rfl⟩, ?_⟩
      intro versionId
      simp [recheckedRun]
  | true =>
      refine ⟨fun version =>
        if version.isValid then client.verifyVersion answers version
        else version, fun version => rechecked_if, ?_⟩
      intro versionId
      exact Dict.get?_mapValues _ _ _

variable {verify : Bool}

/-- What the versions were given is saved unless nothing changed. -/
theorem replicateFile_ok {after : Backfilling}
    (mirrored : client.repo.mirrorKeys ≠ none)
    (done : client.replicateFile answers verify run = .ok after) :
    ∃ middle changed,
      client.mirrorVersions answers
        ((client.recheckedRun answers verify run).desc.versions.values.filter
          TGFSFileVersion.isValid)
        (client.recheckedRun answers verify run) = .ok (middle, changed) ∧
      ((changed = false ∧ client.fdMissing middle.state.file = [] ∧
          after = middle) ∨
        ∃ last, client.saveDescriptor answers.committed middle = .ok last ∧
          after.state = last.state ∧ after.saves = last.saves ∧
          after.report.failures = last.report.failures) := by
  unfold replicateFile at done
  rw [if_neg mirrored] at done
  change (client.mirrorVersions answers ((client.recheckedRun answers verify
    run).desc.versions.values.filter TGFSFileVersion.isValid)
      (client.recheckedRun answers verify run)).bind _ = _ at done
  obtain ⟨middle, all, done⟩ := bind_ok done
  refine ⟨_, _, all, ?_⟩
  dsimp only at done
  split at done
  · right
    obtain ⟨last, commit, done⟩ := bind_ok done
    refine ⟨last, commit, ?_⟩
    split at done
    · cases done
      exact ⟨rfl, rfl, rfl⟩
    · cases done
      exact ⟨rfl, rfl, rfl⟩
  · rename_i nothing
    cases done
    left
    obtain ⟨unchanged, complete⟩ : middle.2 = false ∧
        client.fdMissing middle.1.state.file = [] := by
      simpa using nothing
    exact ⟨unchanged, complete, rfl⟩

/-- After a clean pass over the versions with content every version is done,
with content or without. -/
theorem Mirrored.all {before after : Backfilling}
    (mirrored : client.Mirrored
      (before.desc.versions.values.filter TGFSFileVersion.isValid)
      before after changed) (keyed : before.desc.Keyed)
    (settled : ∀ versionId version,
      before.desc.versions.get? versionId = some version →
        version.pending = false)
    (inert : ∀ versionId version,
      before.desc.versions.get? versionId = some version →
        version.isValid = false → version.Inert client.repo.key)
    {versionId : String}
    (found : after.desc.versions.get? versionId = some version) :
    client.Done version ∧ version.Inert client.repo.key := by
  rcases mirrored.done versionId version found with
    ⟨notListed, there⟩ | ⟨done, valid⟩
  · have invalid : version.isValid = false := by
      cases valid : version.isValid with
      | false => rfl
      | true =>
          have listed := (Dict.mem_values_iff _ _).mpr ⟨versionId, there⟩
          have named := keyed _ ((Dict.get?_eq_some_iff _ _ _).mp there)
          exact absurd (List.mem_map.mpr ⟨version,
            List.mem_filter.mpr ⟨listed, valid⟩, named⟩) notListed
    refine ⟨⟨settled versionId version there, ?_, ?_⟩,
      inert versionId version there invalid⟩
    · intro valid
      rw [invalid] at valid
      cases valid
    · intro valid
      rw [invalid] at valid
      cases valid
  · exact ⟨done, TGFSFileVersion.inert_of_isValid valid⟩

/-- A commit of a descriptor whose versions are all done settles the file. -/
theorem Settled.of_saved {answers : SaveAnswers} {after : Backfilling}
    (mirrored : client.repo.mirrorKeys ≠ none)
    (primary : run.state.InPrimary client) (keyed : run.desc.Keyed)
    (normal : run.desc.AllNormal)
    (all : ∀ versionId version,
      run.desc.versions.get? versionId = some version →
        client.Done version ∧ version.Inert client.repo.key)
    (done : client.saveDescriptor answers run = .ok after)
    (taken : client.TakenByAll after.saves) : client.Settled after.state := by
  rcases @saveDescriptor_cases client answers run primary keyed with
    ⟨failed, raised, _⟩ | committed
  · rw [raised] at done
    cases done
  · rw [done] at committed
    have ready := committed.ready primary keyed normal
      fun versionId version found => (all versionId version found).2
    refine ⟨ready.primary, ready.reads, ?_,
      fdMissing_saved mirrored done taken⟩
    intro versionId stored found
    obtain ⟨version, there, backs⟩ := ready.backs versionId stored found
    rw [committed.desc, FDRepository.stamp, Dict.get?_mapValues] at there
    obtain ⟨source, here, rfl⟩ := Option.map_eq_some_iff.mp there
    exact backs (all versionId source here).1.stamp

theorem Ready.replicate {after : Backfilling} (ready : client.Ready run)
    (mirrored : client.repo.mirrorKeys ≠ none)
    (settled : ∀ versionId version,
      run.desc.versions.get? versionId = some version →
        version.pending = false)
    (done : client.replicateFile answers verify run = .ok after)
    (clean : after.report.failures = [])
    (taken : client.TakenByAll after.saves) : client.Settled after.state := by
  obtain ⟨middle, changed, all, outcome⟩ := replicateFile_ok mirrored done
  have verified : Backfilling.Carries client.repo.key
      (fun _ => ¬client.Intact answers verify run.desc) run
      (client.recheckedRun answers verify run) := verifyMirrors_carries
  obtain ⟨check, rechecks, checks⟩ :=
    @exists_rechecked client answers verify run
  generalize client.recheckedRun answers verify run = checked at *
  have source : ∀ versionId version,
      checked.desc.versions.get? versionId = some version →
        ∃ before, run.desc.versions.get? versionId = some before ∧
          check before = version := by
    intro versionId version found
    rw [checks] at found
    exact Option.map_eq_some_iff.mp found
  have still : ∀ versionId version,
      checked.desc.versions.get? versionId = some version →
        version.pending = false := by
    intro versionId version found
    obtain ⟨before, there, rfl⟩ := source versionId version found
    rw [(rechecks before).pending]
    exact settled versionId before there
  have inert : ∀ versionId version,
      checked.desc.versions.get? versionId = some version →
        version.isValid = false → version.Inert client.repo.key := by
    intro versionId version found invalid
    obtain ⟨before, there, rfl⟩ := source versionId version found
    rw [(rechecks before).without invalid]
    exact ready.inert versionId before there
  have keyed := verified.keyed ready.keyed
  have found : ∀ version ∈ checked.desc.versions.values.filter
      TGFSFileVersion.isValid,
      checked.desc.versions.get? version.id = some version :=
    fun version member => keyed.get?_id (List.mem_filter.mp member).1
  have distinct := keyed.nodup.sublist ((List.filter_sublist
    (p := TGFSFileVersion.isValid)).map TGFSFileVersion.id)
  have carries := (mirrorVersions_phase found distinct).returned middle
    changed all
  have state : middle.state = run.state :=
    carries.state.trans verified.state
  have pass : middle.report.failures = [] → client.Mirrored _ checked middle
      changed := mirrorVersions_clean
    (fun version member => ⟨(List.mem_filter.mp member).2,
      still version.id version (found version member)⟩) found distinct all
  rcases outcome with ⟨unchanged, complete, rfl⟩ |
    ⟨last, saved, sameState, sameSaves, sameFailures⟩
  · refine ⟨state ▸ ready.primary, state ▸ ready.reads, ?_, complete⟩
    intro versionId stored there
    rw [state] at there
    obtain ⟨version, here, backs⟩ := ready.backs versionId stored there
    have now : after.desc.versions.get? versionId = some (check version) := by
      rw [(pass clean).same unchanged versionId, checks, here]
      rfl
    exact backs ((rechecks version).done
      ((pass clean).all keyed still inert now).1)
  · rw [sameSaves] at taken
    rw [sameFailures, saveDescriptor_report saved] at clean
    rw [sameState]
    exact .of_saved mirrored (state ▸ ready.primary) (carries.keyed keyed)
      (carries.normal (verified.normal ready.normal))
      (fun _ _ => (pass clean).all keyed still inert) saved taken

theorem replicateFile_failures {after : Backfilling}
    (mirrored : client.repo.mirrorKeys ≠ none)
    (done : client.replicateFile answers verify run = .ok after)
    (clean : after.report.failures = []) : run.report.failures = [] := by
  obtain ⟨middle, _, all, outcome⟩ := replicateFile_ok mirrored done
  rw [← recheckedRun_report answers verify run]
  apply mirrorVersions_failures all
  rcases outcome with ⟨_, _, rfl⟩ | ⟨last, saved, _, _, sameFailures⟩
  · exact clean
  · rwa [← saveDescriptor_report saved, ← sameFailures]

theorem promote_owned (owned : version.ownedBy client.repo.key = true) :
    client.promote answers version run = (version, run, false) := by
  unfold promote
  exact if_pos owned

theorem mirrorVersion_done (done : client.Done version)
    (valid : version.isValid = true) :
    ∃ after, client.mirrorVersion answers version run = .ok (after, false) ∧
      after.state = run.state ∧ after.copies = run.copies ∧
      after.saves = run.saves ∧
      after.report.failures = run.report.failures := by
  have nothing : client.missingStores version = [] := by
    unfold missingStores
    rw [List.filter_eq_nil_iff]
    intro key member
    simp [done.copies valid key member]
  unfold mirrorVersion
  dsimp only
  rw [promote_owned (done.owned valid)]
  dsimp only
  rw [nothing]
  exact ⟨_, rfl, rfl, rfl, rfl, rfl⟩

theorem mirrorVersions_done (done : ∀ version ∈ versions,
      client.Done version ∧ version.isValid = true) :
    ∃ after,
      client.mirrorVersions answers versions run = .ok (after, false) ∧
      after.state = run.state ∧ after.copies = run.copies ∧
      after.saves = run.saves ∧
      after.report.failures = run.report.failures := by
  induction versions generalizing run with
  | nil => exact ⟨run, rfl, rfl, rfl, rfl, rfl⟩
  | cons version rest induction =>
      obtain ⟨isDone, valid⟩ := done version List.mem_cons_self
      obtain ⟨middle, first, state, copies, saves, failures⟩ :=
        @mirrorVersion_done client answers version run isDone valid
      obtain ⟨after, later, lastState, lastCopies, lastSaves,
        lastFailures⟩ := @induction middle
          fun other member => done other (List.mem_cons_of_mem _ member)
      refine ⟨after, ?_, lastState.trans state, lastCopies.trans copies,
        lastSaves.trans saves, lastFailures.trans failures⟩
      unfold mirrorVersions
      rw [first]
      simp only [bind, Except.bind]
      rw [later]
      rfl

/-- A recheck that finds every message leaves a version done. -/
theorem Done.verifyVersion (done : client.Done version)
    (intact : ∀ versionId key ids,
      answers.recheck versionId key ids ≠ some false) :
    client.Done (client.verifyVersion answers version) :=
  done.of_sameCopies (verifyVersion_intact intact)

theorem replicateFile_done (mirrored : client.repo.mirrorKeys ≠ none)
    (done : ∀ version ∈ run.desc.versions.values, client.Done version)
    (complete : client.fdMissing run.state.file = [])
    (intact : ∀ versionId key ids,
      answers.recheck versionId key ids ≠ some false) :
    ∃ after, client.replicateFile answers verify run = .ok after ∧
      after.state = run.state ∧ after.copies = run.copies ∧
      after.saves = run.saves ∧
      after.report.failures = run.report.failures := by
  have checked : ∀ version ∈ (client.recheckedRun answers verify
      run).desc.versions.values.filter TGFSFileVersion.isValid,
      client.Done version ∧ version.isValid = true := by
    intro version member
    obtain ⟨listed, valid⟩ := List.mem_filter.mp member
    refine ⟨?_, valid⟩
    cases verify with
    | false => exact done version listed
    | true =>
        obtain ⟨versionId, found⟩ := (Dict.mem_values_iff _ _).mp listed
        dsimp only [recheckedRun] at found
        rw [if_pos rfl] at found
        dsimp only at found
        rw [verifyMirrors, Dict.get?_mapValues] at found
        obtain ⟨source, there, rfl⟩ := Option.map_eq_some_iff.mp found
        have before := done source
          ((Dict.mem_values_iff _ _).mpr ⟨versionId, there⟩)
        split
        · exact before.verifyVersion intact
        · exact before
  obtain ⟨after, all, state, copies, saves, failures⟩ :=
    @mirrorVersions_done client answers
      (client.recheckedRun answers verify run) _ checked
  have same : after.state = run.state ∧ after.copies = run.copies ∧
      after.saves = run.saves ∧
      after.report.failures = run.report.failures := by
    rw [state, copies, saves, failures]
    cases verify <;> exact ⟨rfl, rfl, rfl, rfl⟩
  refine ⟨after, ?_, same⟩
  unfold replicateFile
  rw [if_neg mirrored]
  change (client.mirrorVersions answers ((client.recheckedRun answers verify
    run).desc.versions.values.filter TGFSFileVersion.isValid)
      (client.recheckedRun answers verify run)).bind _ = _
  rw [all]
  simp only [Except.bind]
  rw [same.1, complete]
  rfl

/-- The versions of a settled file are done when they are read. -/
theorem Settled.read_done (settled : client.Settled state)
    (finds : client.Finds answers state)
    (got : client.repo.get answers.lookups state.file true true now =
      .ok served) :
    ∀ version ∈ served.versions.values, client.Done version := by
  intro version member
  obtain ⟨versionId, found⟩ := (Dict.mem_values_iff _ _).mp member
  obtain ⟨each, recorded⟩ :=
    read_kept settled.primary settled.reads finds got
  obtain ⟨stored, there⟩ := recorded versionId version found
  obtain ⟨kept, here, copies, _⟩ := each versionId stored there
  rw [found] at here
  cases here
  exact (settled.versions versionId stored there).of_sameCopies copies

/-- A backfill of a settled file copies nothing and saves nothing. -/
theorem Settled.backfillFile (settled : client.Settled state)
    (mirrored : client.repo.mirrorKeys ≠ none)
    (finds : client.Finds answers state)
    (intact : ∀ versionId key ids,
      answers.recheck versionId key ids ≠ some false) :
    ∃ rest, client.backfillFile answers verify now state = .ok rest ∧
      rest.copies = [] ∧ rest.saves = [] ∧ rest.report.failures = [] ∧
      rest.state = state := by
  obtain ⟨served, got⟩ :=
    read_ok now mirrored settled.primary settled.reads finds
  have done := settled.read_done finds got
  have placed : state.file.relocate client.repo.key = state.file :=
    FileRef.relocate_owned settled.primary.owned
  by_cases empty : served.versions.items = []
  · refine ⟨{ state := state, desc := served }, ?_, rfl, rfl, rfl, rfl⟩
    unfold BackfillClient.backfillFile
    dsimp only
    rw [got, placed]
    dsimp only
    rw [if_pos (by simp [empty])]
  · rw [backfillFile_eq got empty, placed]
    have nothing : served.versions.values.filter TGFSFileVersion.pending =
        [] := by
      rw [List.filter_eq_nil_iff]
      intro version member
      simp [(done version member).pending]
    unfold distribute
    dsimp only
    rw [nothing]
    obtain ⟨rest, replicated, same, copies, saves, failures⟩ :=
      @replicateFile_done client answers
        { state := state
          desc := served
          text := client.repo.getFdText answers.lookups state.file }
        verify mirrored done settled.mirrors intact
    exact ⟨rest, replicated, copies, saves, failures, same⟩

/-- A backfill that reports no failure has nothing left to do: every version
has all of its copies and the descriptor text says so, and the next backfill
that finds them all copies and saves nothing. -/
theorem backfill_settles {verify : Bool} {now : DateTime}
    {before : BackfillState} {run : Backfilling}
    (mirrored : client.repo.mirrorKeys ≠ none)
    (primary : before.InPrimary client) (reads : before.Reads)
    (filled : before.versions.items ≠ [])
    (finds : client.Finds answers before)
    (done : client.backfillFile answers verify now before = .ok run)
    (clean : run.report.failures = [])
    (taken : client.TakenByAll run.saves) :
    client.Settled run.state ∧
      ∀ again recheck later, client.Finds again run.state →
        (∀ versionId key ids,
          again.recheck versionId key ids ≠ some false) →
        ∃ rest,
          client.backfillFile again recheck later run.state = .ok rest ∧
          rest.copies = [] ∧ rest.saves = [] ∧ rest.report.failures = [] ∧
          rest.state = run.state := by
  have settled : client.Settled run.state := by
    obtain ⟨served, got⟩ := read_ok now mirrored primary reads finds
    obtain ⟨item, listed⟩ := List.exists_mem_of_ne_nil _ filled
    obtain ⟨each, _⟩ := read_kept primary reads finds got
    obtain ⟨kept, there, _⟩ := each item.1 item.2
      ((Dict.get?_eq_some_iff _ _ _).mpr listed)
    have nonempty : served.versions.items ≠ [] :=
      List.ne_nil_of_mem ((Dict.get?_eq_some_iff _ _ _).mp there)
    rw [backfillFile_eq got nonempty,
      FileRef.relocate_owned primary.owned] at done
    have ready := fun text => read_ready primary reads finds got
      { state := before, desc := served, text := text } rfl rfl
    obtain ⟨middle, first, done⟩ := bind_ok done
    obtain ⟨readyMiddle, pending⟩ := (ready _).distribute first
      (replicateFile_failures mirrored done clean)
    exact readyMiddle.replicate mirrored pending done clean taken
  exact ⟨settled, fun again recheck later found intact =>
    settled.backfillFile mirrored found intact⟩

end BackfillClient

-- A file with its versions in the primary alone, and a mirror that takes
-- them.

def mirroredClient : BackfillClient where
  repo := { FileHistory.alone with mirrorKeys := some ["tg:2"] }
  mode := .auto
  strict := false
  backend _ := "tg"
  maxPartBytes _ := 0
  keys_normal := by
    intro key member
    rw [List.mem_singleton.mp member]
    decide
  keys_distinct := List.nodup_singleton _
  primary_apart := by decide

def mirrorTakes : BackfillAnswers where
  lookups := WriteBack.oneByteEach WriteBack.twoAndEmpty
  recheck _ _ _ := some true
  cached _ := none
  planParts _ := []
  uploadPrimary _ := none
  replicateLocal _ _ := none
  partSizes _ _ := some [1]
  serverCopy _ _ := .copied fun part => ⟨part + 7, by omega⟩
  reupload _ _ _ := none
  replicate _ _ := none
  distributed := takesAll
  committed := { takesAll with send := fun _ => some ⟨11, by decide⟩ }

/-- The mirror is found again with all that it took. -/
def mirrorHolds (state : BackfillState) : BackfillAnswers :=
  { mirrorTakes with lookups := WriteBack.oneByteEach state.texts }

/-- The descriptor text names nothing that is not found. -/
def findsEach (client : BackfillClient) (answers : BackfillAnswers)
    (state : BackfillState) : Bool :=
  (state.texts.get? state.file.messageId).all fun text =>
    (TGFSFileDesc.fromDict text state.file.name ⟨0, false⟩).toOption.all
      fun desc => client.repo.readsWhole answers.lookups true
        (client.repo.relocateVersions desc)

theorem finds_mirrorHolds {client : BackfillClient} {state : BackfillState}
    (each : findsEach client (mirrorHolds state) state = true) :
    client.Finds (mirrorHolds state) state := by
  constructor
  · funext lookup ids
    cases lookup <;> rfl
  · intro text desc stored parsed
    simpa [findsEach, stored, parsed, Except.toOption] using each

theorem both_versions_mirrored :
    ∃ run rest,
      mirroredClient.backfillFile mirrorTakes false ⟨40, false⟩
        twoVersions = .ok run ∧
      run.copies = [("b", "tg:2"), ("a", "tg:2")] ∧
      mirroredClient.Settled run.state ∧
      mirroredClient.backfillFile (mirrorHolds run.state) true ⟨50, false⟩
        run.state = .ok rest ∧
      rest.copies = [] ∧ rest.saves = [] := by
  have known : (mirroredClient.backfillFile mirrorTakes false ⟨40, false⟩
      twoVersions).toOption.map (fun run =>
        (run.copies, run.report.failures, run.saves.all fun save =>
          mirroredClient.mirrorKeys.all fun key =>
            (save.writes.writtenTo key save.existing).isSome,
          findsEach mirroredClient (mirrorHolds run.state) run.state)) =
      some ([("b", "tg:2"), ("a", "tg:2")], [], true, true) := by decide
  cases done : mirroredClient.backfillFile mirrorTakes false ⟨40, false⟩
      twoVersions with
  | error failed =>
      rw [done] at known
      cases known
  | ok run =>
      rw [done] at known
      have facts := Option.some.inj known
      simp only [Prod.mk.injEq, List.all_eq_true] at facts
      obtain ⟨copies, clean, taken, each⟩ := facts
      have finds : mirroredClient.Finds mirrorTakes twoVersions :=
        @finds_mirrorHolds mirroredClient twoVersions (by decide)
      obtain ⟨settled, again⟩ := BackfillClient.backfill_settles (by decide)
        ⟨by decide, by decide⟩ ⟨_, _, rfl, rfl⟩ (by decide) finds done clean
        taken
      obtain ⟨rest, later, uncopied, unsaved, _, _⟩ :=
        again (mirrorHolds run.state) true ⟨50, false⟩
          (finds_mirrorHolds each) (fun _ _ _ => by simp [mirrorHolds,
            mirrorTakes])
      exact ⟨run, rest, rfl, copies, settled, later, uncopied, unsaved⟩

end Tgdcfs
