import Tgdcfs.Replication.KeptVersions

/-!
# What a backfill does to the descriptor in memory

A backfill copies version by version and commits what it has: once after the
pending versions left the local cache, and once at the end.  Until a commit
only the descriptor in memory changes, and every version in it keeps what it
records; the pending versions whose bytes are lost are the only ones that go.
-/

namespace Tgdcfs

open Lib

/-- The run goes on without a commit, and only versions that are lost have
left the descriptor. -/
structure Backfilling.Carries (key : String) (lost : String → Prop)
    (before after : Backfilling) : Prop where
  state : after.state = before.state
  saves : after.saves = before.saves
  keyed : before.desc.Keyed → after.desc.Keyed
  normal : before.desc.AllNormal → after.desc.AllNormal
  versions : ∀ versionId version,
    before.desc.versions.get? versionId = some version → ¬lost versionId →
      ∃ kept, after.desc.versions.get? versionId = some kept ∧
        TGFSFileVersion.Retained key version kept ∧
        (version.Normal → kept.Normal)

namespace Backfilling.Carries

variable {key : String} {lost more : String → Prop}
  {before middle after : Backfilling}

theorem of_desc (state : after.state = before.state)
    (saves : after.saves = before.saves) (desc : after.desc = before.desc) :
    Carries key lost before after := by
  refine ⟨state, saves, ?_, ?_, ?_⟩
  · rw [desc]
    exact id
  · rw [desc]
    exact id
  · intro versionId version found _
    rw [desc]
    exact ⟨version, found, .refl version, id⟩

theorem mono (carries : Carries key lost before after)
    (fewer : ∀ versionId, lost versionId → more versionId) :
    Carries key more before after := by
  refine ⟨carries.state, carries.saves, carries.keyed, carries.normal, ?_⟩
  intro versionId version found stays
  exact carries.versions versionId version found fun gone =>
    stays (fewer versionId gone)

theorem trans (first : Carries key lost before middle)
    (second : Carries key lost middle after) :
    Carries key lost before after := by
  refine ⟨second.state.trans first.state, second.saves.trans first.saves,
    fun keyed => second.keyed (first.keyed keyed),
    fun normal => second.normal (first.normal normal), ?_⟩
  intro versionId version found stays
  obtain ⟨kept, there, retained, normal⟩ :=
    first.versions versionId version found stays
  obtain ⟨last, here, again, after⟩ :=
    second.versions versionId kept there stays
  exact ⟨last, here, retained.trans again,
    fun before => after (normal before)⟩

theorem setVersion {version changed : TGFSFileVersion}
    (found : before.desc.versions.get? version.id = some version)
    (id : changed.id = version.id)
    (retained : TGFSFileVersion.Retained key version changed)
    (normal : version.Normal → changed.Normal) :
    Carries key lost before (before.setVersion changed) := by
  refine ⟨rfl, rfl, ?_, ?_, ?_⟩
  · intro keyed item member
    rw [Backfilling.setVersion, Dict.mem_items_set] at member
    rcases member with rfl | ⟨old, _⟩
    · rfl
    · exact keyed item old
  · intro before_ versionId other there
    rw [Backfilling.setVersion, Dict.get?_set] at there
    split at there
    · cases there
      exact normal (before_ version.id version found)
    · exact before_ versionId other there
  · intro versionId other there _
    rw [Backfilling.setVersion, Dict.get?_set]
    split
    · rename_i same
      rw [same, id, found] at there
      cases there
      exact ⟨changed, rfl, retained, normal⟩
    · exact ⟨other, there, .refl other, fun normal => normal⟩

end Backfilling.Carries

/-- Versions other than this one are as they were. -/
def Backfilling.Others (versionId : String) (before after : Backfilling) :
    Prop :=
  ∀ other, other ≠ versionId →
    after.desc.versions.get? other = before.desc.versions.get? other

theorem Backfilling.others_setVersion (run : Backfilling)
    (version : TGFSFileVersion) :
    run.Others version.id (run.setVersion version) := by
  intro other different
  rw [Backfilling.setVersion, Dict.get?_set, if_neg different]

/-- All that happened to the descriptor is a new state of one version. -/
theorem Backfilling.carries_of_setVersion {key : String}
    {lost : String → Prop} {run after : Backfilling}
    {version changed : TGFSFileVersion}
    (found : run.desc.versions.get? version.id = some version)
    (state : after.state = run.state) (saves : after.saves = run.saves)
    (desc : after.desc = (run.setVersion changed).desc)
    (id : changed.id = version.id)
    (retained : TGFSFileVersion.Retained key version changed)
    (normal : version.Normal → changed.Normal) :
    Carries key lost run after ∧ run.Others version.id after := by
  constructor
  · exact (Carries.setVersion found id retained normal).trans
      (.of_desc state saves desc)
  · intro other different
    rw [desc, ← id] at *
    exact run.others_setVersion changed other different

/-- A phase that raises has committed nothing, and one that does not goes on
with the versions it had; it loses none unless it says that it changed
something. -/
structure Backfilling.Phase (key : String) (lost : String → Prop)
    (run : Backfilling) (result : Except Backfilling (Backfilling × Bool)) :
    Prop where
  raised : ∀ failed, result = .error failed →
    failed.state = run.state ∧ failed.saves = run.saves
  returned : ∀ after changed, result = .ok (after, changed) →
    Carries key (fun versionId => changed = true ∧ lost versionId) run after

/-- Going through versions one by one, each of which changes no other. -/
theorem Backfilling.phase_of_steps {key : String} {lost : String → Prop}
    {step : TGFSFileVersion → Backfilling →
      Except Backfilling (Backfilling × Bool)}
    {all : List TGFSFileVersion → Backfilling →
      Except Backfilling (Backfilling × Bool)}
    (stops : ∀ run, all [] run = .ok (run, false))
    (goes : ∀ version rest run, all (version :: rest) run = do
      let (run, changed) ← step version run
      let (run, later) ← all rest run
      return (run, changed || later))
    {versions : List TGFSFileVersion}
    (distinct : (versions.map TGFSFileVersion.id).Nodup)
    (steps : ∀ version ∈ versions, ∀ run : Backfilling,
      run.desc.versions.get? version.id = some version →
        Phase key lost run (step version run) ∧
        ∀ after changed, step version run = .ok (after, changed) →
          run.Others version.id after)
    {run : Backfilling}
    (found : ∀ version ∈ versions,
      run.desc.versions.get? version.id = some version) :
    Phase key lost run (all versions run) := by
  induction versions generalizing run with
  | nil =>
      rw [stops]
      constructor
      · intro failed done
        cases done
      · intro after changed done
        cases done
        exact .of_desc rfl rfl rfl
  | cons version rest induction =>
      obtain ⟨phase, others⟩ := steps version List.mem_cons_self run
        (found version List.mem_cons_self)
      rw [goes]
      cases first : step version run with
      | error stopped =>
          constructor
          · intro failed done
            cases done
            exact phase.raised stopped first
          · intro after changed done
            cases done
      | ok middle =>
          have carries := phase.returned middle.1 middle.2 first
          rw [List.map_cons, List.nodup_cons] at distinct
          have later := @induction distinct.2
            (fun other member =>
              steps other (List.mem_cons_of_mem version member))
            middle.1
            (by
              intro other member
              rw [others middle.1 middle.2 first other.id]
              · exact found other (List.mem_cons_of_mem version member)
              · intro same
                exact distinct.1 (same ▸ List.mem_map.mpr
                  ⟨other, member, rfl⟩))
          simp only [bind, Except.bind]
          cases rest_ : all rest middle.1 with
          | error stopped =>
              constructor
              · intro failed done
                cases done
                obtain ⟨state, saves⟩ := later.raised stopped rest_
                exact ⟨state.trans carries.state, saves.trans carries.saves⟩
              · intro after changed done
                cases done
          | ok last =>
              constructor
              · intro failed done
                cases done
              · intro after changed done
                cases done
                refine (carries.mono ?_).trans
                  ((later.returned last.1 last.2 rest_).mono ?_)
                · rintro versionId ⟨changed, lost⟩
                  exact ⟨by simp [changed], lost⟩
                · rintro versionId ⟨changed, lost⟩
                  exact ⟨by simp [changed], lost⟩

namespace BackfillClient

variable {client : BackfillClient} {answers : BackfillAnswers}

/-- Only replicas are added, in the stores that are asked. -/
theorem replicatePending_spec {targets : List String}
    {version : TGFSFileVersion} {run : Backfilling} :
    ∃ replicas,
      (replicatePending answers targets version run).1 =
        { version with replicas := replicas } ∧
      (∀ key, key ∉ targets →
        replicas.get? key = version.replicas.get? key) ∧
      ((∀ key ∈ targets, normalizeStoreKey key = key) →
        KeysNormal version.replicas → KeysNormal replicas) ∧
      (replicatePending answers targets version run).2.1.state = run.state ∧
      (replicatePending answers targets version run).2.1.saves = run.saves ∧
      (replicatePending answers targets version run).2.1.desc =
        run.desc := by
  induction targets generalizing version run with
  | nil =>
      exact ⟨version.replicas, rfl, fun _ _ => rfl, fun _ normal => normal,
        rfl, rfl, rfl⟩
  | cons key rest induction =>
      unfold replicatePending
      cases answers.replicateLocal version.id key with
      | none =>
          obtain ⟨replicas, changed, others, normal, unchanged⟩ :=
            @induction version (run.failed (.replicate version.id key))
          refine ⟨replicas, changed, ?_, ?_, unchanged⟩
          · intro other outside
            exact others other fun member =>
              outside (List.mem_cons_of_mem key member)
          · intro made
            exact normal fun other member =>
              made other (List.mem_cons_of_mem key member)
      | some replica =>
          obtain ⟨replicas, changed, others, normal, unchanged⟩ :=
            @induction { version with
              replicas := version.replicas.set key replica.val } run
          refine ⟨replicas, changed, ?_, ?_, unchanged⟩
          · intro other outside
            rw [others other fun member =>
              outside (List.mem_cons_of_mem key member)]
            dsimp only
            rw [Dict.get?_set, if_neg]
            rintro rfl
            exact outside List.mem_cons_self
          · intro made before
            apply normal
            · intro other member
              exact made other (List.mem_cons_of_mem key member)
            · exact before.set (made key List.mem_cons_self) replica.val

/-- A pending version keeps its replicas when it gets more, and when it gets
its content. -/
theorem retained_replicas {version : TGFSFileVersion}
    {replicas : Dict String Replica} {targets : List String}
    (absent : ∀ target ∈ targets, version.hasCopyIn target = false)
    (others : ∀ target, target ∉ targets →
      replicas.get? target = version.replicas.get? target) :
    ∀ storeKey replica, version.replicas.get? storeKey = some replica →
      replica.messageIds ≠ [] →
        ∃ other, replicas.get? storeKey = some other ∧
          other.messageIds = replica.messageIds := by
  intro storeKey replica found nonempty
  refine ⟨replica, ?_, rfl⟩
  rw [others storeKey]
  · exact found
  · intro member
    have missing := absent storeKey member
    rw [TGFSFileVersion.hasCopyIn_of_replica found nonempty] at missing
    cases missing

theorem distributePending_error {version : TGFSFileVersion}
    {run failed : Backfilling}
    (done : client.distributePending answers version run = .error failed) :
    failed = run := by
  unfold distributePending at done
  cases cached : answers.cached version.id with
  | none =>
      rw [cached] at done
      dsimp only at done
      split at done
      · cases done
        rfl
      · cases done
  | some size =>
      rw [cached] at done
      dsimp only at done
      split at done
      · cases done
      · cases done

/-- A deletion takes one version, and nothing else. -/
theorem carries_deleteVersion {run : Backfilling} {versionId : String}
    {desc : TGFSFileDesc}
    (deletes : run.desc.deleteVersion versionId = .ok desc) :
    Backfilling.Carries client.repo.key (· = versionId) run
        { run with desc := desc } ∧
      run.Others versionId { run with desc := desc } := by
  obtain ⟨versions, _⟩ := TGFSFileDesc.deleteVersion_ok deletes
  refine ⟨⟨rfl, rfl, ?_, ?_, ?_⟩, ?_⟩
  · intro keyed item member
    dsimp only at member
    rw [versions, Dict.mem_items_erase] at member
    exact keyed item member.1
  · intro normal other version there
    dsimp only at there
    rw [versions] at there
    exact normal other version (Dict.get?_of_erase there)
  · intro other version there stays
    dsimp only
    rw [versions, Dict.get?_erase, if_neg stays]
    exact ⟨version, there, .refl version, id⟩
  · intro other different
    dsimp only
    rw [versions, Dict.get?_erase, if_neg different]

theorem distributePending_carries {version : TGFSFileVersion}
    {run after : Backfilling} {changed : Bool}
    (pending : version.pending = true)
    (found : run.desc.versions.get? version.id = some version)
    (done : client.distributePending answers version run =
      .ok (after, changed)) :
    Backfilling.Carries client.repo.key
        (fun versionId => changed = true ∧ versionId = version.id ∧
          answers.cached versionId = none) run after ∧
      run.Others version.id after := by
  unfold distributePending at done
  cases cached : answers.cached version.id with
  | none =>
      rw [cached] at done
      dsimp only at done
      cases deletes : run.desc.deleteVersion version.id with
      | error failure =>
          rw [deletes] at done
          cases done
      | ok desc =>
          rw [deletes] at done
          cases done
          obtain ⟨carries, others⟩ :=
            @carries_deleteVersion client run version.id desc deletes
          exact ⟨carries.mono fun _ same => ⟨rfl, same, same ▸ cached⟩, others⟩
  | some size =>
      rw [cached] at done
      dsimp only at done
      let targets := client.mirrorKeys.filter fun key =>
        client.needsReplica key (answers.planParts size) &&
          !version.hasCopyIn key
      let tried := run.attempted version.id (client.repo.key :: targets)
      obtain ⟨replicas, filled, others, normalReplicas, state, saves, desc⟩ :=
        @replicatePending_spec answers targets version tried
      have made : ∀ key ∈ targets, normalizeStoreKey key = key :=
        fun key member =>
          client.keys_normal key (List.mem_filter.mp member).1
      have kept := @retained_replicas version replicas targets
        (fun target member => by
          simpa using (Bool.and_eq_true_iff.mp
            (List.mem_filter.mp member).2).2) others
      have sameDesc : ∀ changed : TGFSFileVersion,
          ((replicatePending answers targets version
            tried).2.1.setVersion changed).desc =
              (run.setVersion changed).desc := by
        intro changed
        unfold Backfilling.setVersion
        dsimp only
        rw [desc]
        rfl
      cases uploaded : answers.uploadPrimary version.id with
      | none =>
          rw [uploaded] at done
          cases done
          refine run.carries_of_setVersion found ?_ ?_ (sameDesc _) ?_ ?_ ?_
          · exact state
          · exact saves
          · rw [filled]
          · rw [filled]
            exact ⟨id, fun _ valid => valid, id, fun _ _ _ => rfl,
              fun _ _ _ _ there _ => there, fun _ => kept⟩
          · intro normal
            rw [filled]
            exact ⟨normal.mirrors, normalReplicas made normal.replicas,
              normal.store⟩
      | some sent =>
          rw [uploaded] at done
          cases done
          have never : ∀ {P : Prop}, version.pending = false → P := by
            intro P settled
            rw [pending] at settled
            cases settled
          refine run.carries_of_setVersion found ?_ ?_ (sameDesc _) ?_ ?_ ?_
          · exact state
          · exact saves
          · rw [filled]
            rfl
          · rw [filled]
            exact ⟨fun _ => rfl, fun settled _ => never settled,
              fun _ => TGFSFileVersion.ownedBy_iff.mpr (.inr rfl),
              fun _ settled _ => never settled,
              fun _ settled _ _ _ _ => never settled, fun _ => kept⟩
          · intro normal
            rw [filled]
            refine ⟨normal.mirrors, normalReplicas made normal.replicas, ?_⟩
            intro owner stored
            cases stored
            exact client.repo.key_normal

/-- Until the pending versions are committed only the lost ones go. -/
theorem distributeAll_phase {versions : List TGFSFileVersion}
    {run : Backfilling}
    (pending : ∀ version ∈ versions, version.pending = true)
    (found : ∀ version ∈ versions,
      run.desc.versions.get? version.id = some version)
    (distinct : (versions.map TGFSFileVersion.id).Nodup) :
    Backfilling.Phase client.repo.key
      (fun versionId => versionId ∈ versions.map TGFSFileVersion.id ∧
        answers.cached versionId = none)
      run (client.distributeAll answers versions run) := by
  refine Backfilling.phase_of_steps (fun _ => rfl) (fun _ _ _ => rfl)
    distinct ?_ found
  intro version member run here
  refine ⟨⟨?_, ?_⟩, ?_⟩
  · intro failed done
    rw [distributePending_error done]
    exact ⟨rfl, rfl⟩
  · intro after changed done
    apply (distributePending_carries (pending version member) here
      done).1.mono
    rintro _ ⟨changed, rfl, lost⟩
    exact ⟨changed, List.mem_map.mpr ⟨version, member, rfl⟩, lost⟩
  · intro after changed done
    exact (distributePending_carries (pending version member) here done).2

theorem promote_spec (version : TGFSFileVersion) (run : Backfilling) :
    (client.promote answers version run).1.id = version.id ∧
      TGFSFileVersion.Retained client.repo.key version
        (client.promote answers version run).1 ∧
      (version.Normal → (client.promote answers version run).1.Normal) ∧
      (client.promote answers version run).2.1.state = run.state ∧
      (client.promote answers version run).2.1.saves = run.saves ∧
      (client.promote answers version run).2.1.desc = run.desc := by
  unfold promote
  cases owned : version.ownedBy client.repo.key with
  | true => exact ⟨rfl, .refl version, id, rfl, rfl, rfl⟩
  | false =>
      rw [if_neg Bool.false_ne_true]
      dsimp only
      cases copied : client.copyIntoPrimary answers version with
      | none => exact ⟨rfl, .refl version, id, rfl, rfl, rfl⟩
      | some moved =>
          obtain ⟨retained, named, normal⟩ :=
            copyIntoPrimary_retained owned copied
          obtain ⟨moved, owns⟩ := moved
          cases owns with
          | false => exact ⟨named, retained, normal, rfl, rfl, rfl⟩
          | true => exact ⟨named, retained, normal, rfl, rfl, rfl⟩

theorem mirrorVersion_phase {version : TGFSFileVersion} {run : Backfilling}
    (found : run.desc.versions.get? version.id = some version) :
    Backfilling.Phase client.repo.key (fun _ => False) run
        (client.mirrorVersion answers version run) ∧
      ∀ after changed,
        client.mirrorVersion answers version run = .ok (after, changed) →
          run.Others version.id after := by
  obtain ⟨named, retained, normal, state, saves, desc⟩ :=
    @promote_spec client answers version
      { run with report :=
        { run.report with
          versionsChecked := run.report.versionsChecked + 1 } }
  unfold mirrorVersion
  dsimp only
  revert named retained normal state saves desc
  generalize client.promote answers version _ = promoted
  obtain ⟨moved, next, copiedHere⟩ := promoted
  intro named retained normal state saves desc
  dsimp only at named retained normal state saves desc ⊢
  have sameDesc : ∀ changed : TGFSFileVersion,
      (next.setVersion changed).desc = (run.setVersion changed).desc := by
    intro changed
    unfold Backfilling.setVersion
    dsimp only
    rw [desc]
  split
  · have outcome : Backfilling.Carries client.repo.key
        (fun _ => copiedHere = true ∧ False) run
        (next.setVersion moved) ∧ _ :=
      run.carries_of_setVersion found state saves (sameDesc moved) named
        retained normal
    refine ⟨⟨?_, ?_⟩, ?_⟩
    · intro failed done
      cases done
    · intro after changed done
      cases done
      exact outcome.1
    · intro after changed done
      cases done
      exact outcome.2
  · cases copies : client.mirrorParts answers moved
        (client.missingStores moved) with
    | none =>
        refine ⟨⟨?_, ?_⟩, ?_⟩
        · intro failed done
          cases done
          exact ⟨state, saves⟩
        · intro after changed done
          cases done
        · intro after changed done
          cases done
    | some made =>
        have absent : ∀ storeKey ∈ made.storeKeys,
            moved.hasCopyIn storeKey = false := by
          intro storeKey member
          simpa using (List.mem_filter.mp
            (mirrorParts_wanted copies storeKey member)).2
        have applied : (made.applyTo moved).id = version.id := named
        have outcome : ∀ (lost : String → Prop) (after : Backfilling),
            after.state = run.state → after.saves = run.saves →
            after.desc = (run.setVersion (made.applyTo moved)).desc →
            Backfilling.Carries client.repo.key lost run after ∧
              run.Others version.id after := by
          intro lost after sameState sameSaves same
          exact run.carries_of_setVersion found sameState sameSaves same
            applied (retained.trans (made.retained_applyTo _ absent))
            fun before => (mirrorParts_complete copies).normal
              (normal before)
        refine ⟨⟨?_, ?_⟩, ?_⟩
        · intro failed done
          cases done
        · intro after changed done
          cases done
          refine (outcome _ _ ?_ ?_ ?_).1
          · split <;> split <;> exact state
          · split <;> split <;> exact saves
          · split <;> split <;> exact sameDesc _
        · intro after changed done
          cases done
          refine (outcome (fun _ => False) _ ?_ ?_ ?_).2
          · split <;> split <;> exact state
          · split <;> split <;> exact saves
          · split <;> split <;> exact sameDesc _

theorem mirrorVersions_phase {versions : List TGFSFileVersion}
    {run : Backfilling}
    (found : ∀ version ∈ versions,
      run.desc.versions.get? version.id = some version)
    (distinct : (versions.map TGFSFileVersion.id).Nodup) :
    Backfilling.Phase client.repo.key (fun _ => False) run
      (client.mirrorVersions answers versions run) :=
  Backfilling.phase_of_steps (fun _ => rfl) (fun _ _ _ => rfl) distinct
    (fun _ _ _ here => mirrorVersion_phase here) found

end BackfillClient

/-- A descriptor message of the primary is edited in place. -/
theorem FDRepository.save_editable {repo : FDRepository}
    {texts : FDRepository.Texts} {desc : TGFSFileDesc} {file : FileRef}
    {text : DescSerialized} (written : (repo.stamp desc).toDict = .ok text)
    (found : repo.editable texts (some file) = some file) (fresh : Int)
    (writes : MirrorWrites) :
    (repo.save texts desc (some file) fresh writes).1 =
        texts.set file.messageId text ∧
      ∀ resp, (repo.save texts desc (some file) fresh writes).2 = .ok resp →
        resp.messageId = file.messageId ∧ resp.store = repo.key := by
  unfold save
  dsimp only
  rw [written, found]
  dsimp only
  split
  · refine ⟨rfl, ?_⟩
    intro resp done
    cases done
  · refine ⟨rfl, ?_⟩
    intro resp done
    cases done
    exact ⟨rfl, rfl⟩

/-- The run as it stands, whether or not the call raised. -/
def Backfilling.outcome : Except Backfilling Backfilling → Backfilling
  | .ok run => run
  | .error run => run

namespace BackfillState

/-- The versions that the descriptor message records. -/
def versions (state : BackfillState) : Dict String TGFSFileVersion :=
  match state.texts.get? state.file.messageId with
  | none => Dict.empty
  | some text =>
      match TGFSFileDesc.fromDict text state.file.name ⟨0, false⟩ with
      | .error _ => Dict.empty
      | .ok desc => desc.versions

/-- The descriptor message holds the text of a descriptor. -/
def Reads (state : BackfillState) : Prop :=
  ∃ text desc, state.texts.get? state.file.messageId = some text ∧
    TGFSFileDesc.fromDict text state.file.name ⟨0, false⟩ = .ok desc

/-- The descriptor message lives in the primary. -/
structure InPrimary (client : BackfillClient) (state : BackfillState) :
    Prop where
  owned : state.file.ownedBy client.repo.key = true
  present : state.texts.contains state.file.messageId = true

/-- The descriptor message keeps its place. -/
structure Stays (client : BackfillClient) (before after : BackfillState) :
    Prop where
  messageId : after.file.messageId = before.file.messageId
  name : after.file.name = before.file.name
  primary : before.InPrimary client → after.InPrimary client

theorem versions_of_stored {state : BackfillState} {text : DescSerialized}
    {desc : TGFSFileDesc}
    (stored : state.texts.get? state.file.messageId = some text)
    (read : TGFSFileDesc.fromDict text state.file.name ⟨0, false⟩ =
      .ok desc) : state.versions = desc.versions := by
  unfold versions
  rw [stored]
  dsimp only
  rw [read]

end BackfillState

namespace BackfillClient

variable {client : BackfillClient}

/-- The call stored a descriptor text, which records the versions it was
given, or changed nothing. -/
structure Committed (client : BackfillClient) (run after : Backfilling) :
    Prop where
  saves : after.saves.length = run.saves.length + 1
  desc : after.desc = client.repo.stamp run.desc
  stays : run.state.Stays client after.state
  reads : after.state.Reads
  versions : ∀ versionId, after.state.versions.get? versionId =
    (run.desc.versions.get? versionId).map fun version =>
      (FDRepository.stampVersion client.repo.key version).reread

/-- The stored form of the stamped descriptor stands in the message. -/
theorem Committed.of_texts {run after : Backfilling}
    (keyed : run.desc.Keyed)
    (storable : (client.repo.stamp run.desc).Storable)
    (saves : after.saves.length = run.saves.length + 1)
    (desc : after.desc = client.repo.stamp run.desc)
    (messageId : after.state.file.messageId = run.state.file.messageId)
    (name : after.state.file.name = run.state.file.name)
    (owned : after.state.file.ownedBy client.repo.key = true)
    (texts : after.state.texts = run.state.texts.set run.state.file.messageId
      (client.repo.stamp run.desc).stored) : Committed client run after := by
  obtain ⟨rewritten, read, versions⟩ := FDRepository.fromDict_stamped keyed
    storable after.state.file.name ⟨0, false⟩
  have stored : after.state.texts.get? after.state.file.messageId =
      some (client.repo.stamp run.desc).stored := by
    rw [texts, messageId, Dict.get?_set, if_pos rfl]
  refine ⟨saves, desc, ⟨messageId, name, fun _ => ⟨owned, ?_⟩⟩,
    ⟨_, rewritten, stored, read⟩, ?_⟩
  · rw [Dict.contains, stored]
    rfl
  · rw [BackfillState.versions_of_stored stored read]
    exact versions

theorem saveDescriptor_cases {answers : SaveAnswers} {run : Backfilling}
    (primary : run.state.InPrimary client) (keyed : run.desc.Keyed) :
    (∃ failed, client.saveDescriptor answers run = .error failed ∧
        failed.state = run.state ∧ failed.saves = run.saves) ∨
      Committed client run
        (Backfilling.outcome (client.saveDescriptor answers run)) := by
  have found : client.repo.editable run.state.texts (some run.state.file) =
      some run.state.file := by
    unfold FDRepository.editable
    exact if_pos ⟨primary.owned, primary.present⟩
  unfold saveDescriptor
  dsimp only
  by_cases storable : (client.repo.stamp run.desc).Storable
  · have written := TGFSFileDesc.toDict_ok storable
    rw [written]
    dsimp only
    cases accepted : answers.accepted with
    | false => exact .inl ⟨_, rfl, rfl, rfl⟩
    | true =>
        right
        rw [if_neg (by simp)]
        obtain ⟨texts, located⟩ := FDRepository.save_editable written found
          answers.fresh (answers.writes client.strict)
        revert texts located
        generalize client.repo.save run.state.texts run.desc
          (some run.state.file) answers.fresh
          (answers.writes client.strict) = done
        intro texts located
        cases result : done.2 with
        | error failure =>
            exact .of_texts keyed storable (by simp [Backfilling.outcome]) rfl
              rfl rfl primary.owned texts
        | ok resp =>
            obtain ⟨messageId, store⟩ := located resp result
            refine .of_texts keyed storable (by simp [Backfilling.outcome])
              rfl messageId rfl ?_ texts
            simp [Backfilling.outcome, FileRef.ownedBy, store]
  · obtain ⟨failure, fails⟩ := TGFSFileDesc.toDict_error storable
    rw [fails]
    exact .inl ⟨_, rfl, rfl, rfl⟩

/-- A call that commits at most once: it changed nothing, or it went on with
the versions it had and stored them. -/
def Commits (client : BackfillClient) (lost : String → Prop)
    (run : Backfilling) (result : Except Backfilling Backfilling) : Prop :=
  ((Backfilling.outcome result).state = run.state ∧
    (Backfilling.outcome result).saves = run.saves) ∨
  ∃ middle, Backfilling.Carries client.repo.key lost run middle ∧
    Committed client middle (Backfilling.outcome result)

theorem Commits.report {lost : String → Prop} {run after : Backfilling}
    (commits : Commits client lost run (.ok after))
    (report : BackfillReport) :
    Commits client lost run (.ok { after with report := report }) := by
  rcases commits with same | ⟨middle, carries, committed⟩
  · exact .inl same
  · exact .inr ⟨middle, carries, committed.saves, committed.desc,
      committed.stays, committed.reads, committed.versions⟩

theorem commits_saveDescriptor {lost : String → Prop} {run middle :
    Backfilling} (carries : Backfilling.Carries client.repo.key lost run
      middle) (answers : SaveAnswers)
    (primary : run.state.InPrimary client) (keyed : run.desc.Keyed) :
    Commits client lost run (client.saveDescriptor answers middle) := by
  rcases @saveDescriptor_cases client answers middle
      (carries.state ▸ primary) (carries.keyed keyed) with
    ⟨failed, raised, state, saves⟩ | committed
  · left
    rw [raised]
    exact ⟨state.trans carries.state, saves.trans carries.saves⟩
  · exact .inr ⟨middle, carries, committed⟩

/-- The pending versions whose bytes the local cache no longer holds. -/
def lostVersions (answers : BackfillAnswers) (desc : TGFSFileDesc) :
    List String :=
  ((desc.versions.values.filter TGFSFileVersion.pending).map
    TGFSFileVersion.id).filter fun versionId =>
      (answers.cached versionId).isNone

/-- The first part of a backfill, up to its first commit. -/
def distribute (client : BackfillClient) (answers : BackfillAnswers)
    (run : Backfilling) : Except Backfilling Backfilling := do
  let (run, distributed) ← client.distributeAll answers
    (run.desc.versions.values.filter TGFSFileVersion.pending) run
  if distributed then client.saveDescriptor answers.distributed run
  else .ok run

theorem distributeAll_pending {answers : BackfillAnswers} {run : Backfilling}
    (keyed : run.desc.Keyed) :
    Backfilling.Phase client.repo.key
      (fun versionId => versionId ∈ (run.desc.versions.values.filter
        TGFSFileVersion.pending).map TGFSFileVersion.id ∧
          answers.cached versionId = none)
      run (client.distributeAll answers
        (run.desc.versions.values.filter TGFSFileVersion.pending) run) :=
  distributeAll_phase
    (fun _ member => (List.mem_filter.mp member).2)
    (fun _ member => keyed.get?_id (List.mem_filter.mp member).1)
    (keyed.nodup.sublist (List.filter_sublist.map _))

theorem distribute_commits {answers : BackfillAnswers} {run : Backfilling}
    (primary : run.state.InPrimary client) (keyed : run.desc.Keyed) :
    Commits client (· ∈ lostVersions answers run.desc) run
      (client.distribute answers run) := by
  have phase := @distributeAll_pending client answers run keyed
  unfold distribute
  cases done : client.distributeAll answers
      (run.desc.versions.values.filter TGFSFileVersion.pending) run with
  | error failed =>
      left
      exact phase.raised failed done
  | ok middle =>
      have carries : Backfilling.Carries client.repo.key
          (· ∈ lostVersions answers run.desc) run middle.1 := by
        apply (phase.returned middle.1 middle.2 done).mono
        rintro versionId ⟨_, member, lost⟩
        exact List.mem_filter.mpr ⟨member, by simp [lost]⟩
      simp only [bind, Except.bind]
      split
      · exact commits_saveDescriptor carries answers.distributed primary keyed
      · left
        exact ⟨carries.state, carries.saves⟩

theorem distribute_uncommitted {answers : BackfillAnswers}
    {run after : Backfilling} (primary : run.state.InPrimary client)
    (keyed : run.desc.Keyed)
    (done : client.distribute answers run = .ok after)
    (saves : after.saves = run.saves) :
    Backfilling.Carries client.repo.key (fun _ => False) run after := by
  have phase := @distributeAll_pending client answers run keyed
  obtain ⟨⟨middle, changed⟩, all, done⟩ := bind_ok done
  have carries := phase.returned middle changed all
  cases changed with
  | false =>
      cases done
      apply carries.mono
      rintro versionId ⟨changes, _⟩
      cases changes
  | true =>
      change client.saveDescriptor answers.distributed middle = .ok after
        at done
      have kept : middle.desc.Keyed := carries.keyed keyed
      rcases @saveDescriptor_cases client answers.distributed middle
          (carries.state ▸ primary) kept with
        ⟨failed, raised, _⟩ | committed
      · rw [raised] at done
        cases done
      · rw [done] at committed
        have longer := committed.saves
        rw [Backfilling.outcome, saves, carries.saves] at longer
        simp at longer

/-- A recheck of the copies of a descriptor, if one is asked for, finds all
of them. -/
def Intact (client : BackfillClient) (answers : BackfillAnswers)
    (verify : Bool) (desc : TGFSFileDesc) : Prop :=
  verify = true → ∀ version ∈ desc.versions.values, version.isValid = true →
    ∀ copy ∈ recordedCopies version, client.gone answers version copy = false

theorem retained_verifyVersion {answers : BackfillAnswers}
    {version : TGFSFileVersion} {key : String}
    (intact : ∀ copy ∈ recordedCopies version,
      client.gone answers version copy = false) :
    TGFSFileVersion.Retained key version
      (client.verifyVersion answers version) := by
  have nothing : (recordedCopies version).filter
      (client.gone answers version) = [] := by
    rw [List.filter_eq_nil_iff]
    intro copy member
    simp [intact copy member]
  have whole : ∀ {α : Type} (dict : Dict String α) (storeKey : String),
      (dict.filterKeys (!(([] : List (String × List Int)).map
        Prod.fst).contains ·)).get? storeKey = dict.get? storeKey := by
    intro α dict storeKey
    rw [Dict.get?_filterKeys]
    exact if_pos rfl
  unfold verifyVersion
  rw [nothing]
  refine ⟨id, fun _ valid => valid, id, fun _ _ _ => rfl, ?_, ?_⟩
  · intro _ _ storeKey ids found _
    rw [whole]
    exact found
  · intro _ storeKey replica found _
    exact ⟨replica, (whole _ _).trans found, rfl⟩

theorem verifyMirrors_carries {answers : BackfillAnswers} {verify : Bool}
    {run : Backfilling} :
    Backfilling.Carries client.repo.key
      (fun _ => ¬client.Intact answers verify run.desc) run
      (if verify then
        { run with desc := client.verifyMirrors answers run.desc }
      else run) := by
  cases verify with
  | false => exact .of_desc rfl rfl rfl
  | true =>
      rw [if_pos rfl]
      refine ⟨rfl, rfl, ?_, ?_, ?_⟩
      · intro keyed item member
        obtain ⟨source, listed, rfl⟩ := List.mem_map.mp member
        dsimp only
        rw [← keyed source listed]
        split <;> rfl
      · intro normal versionId version found
        dsimp only at found
        rw [verifyMirrors, Dict.get?_mapValues] at found
        obtain ⟨before, there, rfl⟩ := Option.map_eq_some_iff.mp found
        split
        · exact verifyVersion_normal (normal versionId before there)
        · exact normal versionId before there
      · intro versionId version found intact
        dsimp only
        rw [verifyMirrors, Dict.get?_mapValues, found, Option.map_some]
        refine ⟨_, rfl, ?_, ?_⟩
        · split
          · rename_i valid
            have listed := (Dict.mem_values_iff _ _).mpr ⟨versionId, found⟩
            exact retained_verifyVersion
              (not_not.mp intact rfl version listed valid)
          · exact .refl version
        · intro normal
          split
          · exact verifyVersion_normal normal
          · exact normal

theorem replicateFile_commits {answers : BackfillAnswers} {verify : Bool}
    {run : Backfilling} (primary : run.state.InPrimary client)
    (keyed : run.desc.Keyed) :
    Commits client (fun _ => ¬client.Intact answers verify run.desc) run
      (client.replicateFile answers verify run) := by
  unfold replicateFile
  split
  · exact .inl ⟨rfl, rfl⟩
  · have verified := @verifyMirrors_carries client answers verify run
    revert verified
    dsimp only
    generalize (if verify then
      { run with desc := client.verifyMirrors answers run.desc }
      else run) = checked
    intro verified
    have checkedKeyed := verified.keyed keyed
    have phase := @mirrorVersions_phase client answers
      (checked.desc.versions.values.filter TGFSFileVersion.isValid) checked
      (fun version member =>
        checkedKeyed.get?_id (List.mem_filter.mp member).1)
      (checkedKeyed.nodup.sublist (List.filter_sublist.map _))
    cases done : client.mirrorVersions answers
        (checked.desc.versions.values.filter TGFSFileVersion.isValid)
        checked with
    | error failed =>
        left
        obtain ⟨state, saves⟩ := phase.raised failed done
        exact ⟨state.trans verified.state, saves.trans verified.saves⟩
    | ok middle =>
        have carries := verified.trans
          ((phase.returned middle.1 middle.2 done).mono
            fun _ never => never.2.elim)
        simp only [bind, Except.bind]
        split
        · have commits := commits_saveDescriptor carries answers.committed
            primary keyed
          cases saved : client.saveDescriptor answers.committed middle.1 with
          | error failed =>
              rw [saved] at commits
              exact commits
          | ok last =>
              rw [saved] at commits
              dsimp only
              split
              · exact commits
              · exact commits.report _
        · left
          exact ⟨carries.state, carries.saves⟩

/-- A backfill that reads a descriptor distributes and replicates it. -/
theorem backfillFile_eq {answers : BackfillAnswers} {verify : Bool}
    {now : DateTime} {before : BackfillState} {desc : TGFSFileDesc}
    (got : client.repo.get answers.lookups before.file true true now =
      .ok desc)
    (filled : desc.versions.items ≠ []) :
    client.backfillFile answers verify now before =
      (client.distribute answers
        { state :=
            { before with file := before.file.relocate client.repo.key }
          desc := desc
          text := client.repo.getFdText answers.lookups
            (before.file.relocate client.repo.key) }).bind
        (client.replicateFile answers verify) := by
  unfold backfillFile distribute
  dsimp only
  rw [got]
  dsimp only
  rw [if_neg (by simpa using filled)]
  cases client.distributeAll answers
      (desc.versions.values.filter TGFSFileVersion.pending) _ with
  | error failed => rfl
  | ok middle =>
      obtain ⟨run, distributed⟩ := middle
      cases distributed with
      | false => rfl
      | true =>
          simp only [bind, Except.bind, if_true]

end BackfillClient

end Tgdcfs
