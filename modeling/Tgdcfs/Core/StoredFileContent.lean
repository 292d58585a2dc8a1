import Tgdcfs.Core.StoredFile
import Tgdcfs.Lib.Traversals

/-!
# What an upload leaves

An upload from a stream that returns has taken the announced bytes off the
stream, and the version it adds is served afterwards unless a readable
version is dated after it.
-/

namespace Tgdcfs

open Lib

namespace StreamMessage

/-- The bytes a stream has still to give. -/
def rest (message : StreamMessage) : Bytes :=
  message.buffer ++ message.stream.flatten

variable {message : StreamMessage}

theorem read_takes {next : StreamMessage} {length : Nat} {data : Bytes}
    (room : message.readSize + length ≤ message.size)
    (read : message.read length = some (next, data)) :
    data.length = length ∧ data ++ next.rest = message.rest ∧
      next.readSize = message.readSize + length ∧
      next.size = message.size := by
  obtain ⟨taken, left, counter, size⟩ := read_spec room read
  have enough : length ≤ message.rest.length := by
    unfold StreamMessage.read at read
    obtain ⟨⟨stream, filled⟩, pulled, _⟩ := Option.map_eq_some_iff.mp read
    obtain ⟨long, same⟩ := pull_spec pulled
    have total := congrArg List.length same
    simp only [List.length_append] at total
    simp only [rest, List.length_append]
    omega
  refine ⟨?_, ?_, counter, size⟩
  · rw [taken]
    exact List.length_take_of_le enough
  · rw [taken]
    unfold rest
    rw [left]
    exact List.take_append_drop _ _

theorem readAll_takes {lengths : List Nat} {next : SourceMessage}
    {data : Bytes} (room : message.readSize + lengths.sum ≤ message.size)
    (read : readAll SourceMessage.operations lengths (.stream message) =
      some (next, data)) :
    ∃ ended : StreamMessage, next = .stream ended ∧
      data.length = lengths.sum ∧ data ++ ended.rest = message.rest ∧
      ended.readSize = message.readSize + lengths.sum ∧
      ended.size = message.size := by
  induction lengths generalizing message data with
  | nil =>
      cases read
      exact ⟨message, rfl, rfl, rfl, rfl, rfl⟩
  | cons length lengths induction =>
      rw [List.sum_cons] at room ⊢
      unfold readAll at read
      split at read
      · cases read
      · rename_i middle first taken
        obtain ⟨⟨moved, bytes⟩, firstRead, same⟩ :=
          Option.map_eq_some_iff.mp taken
        cases same
        obtain ⟨⟨ended, others⟩, restRead, same⟩ :=
          Option.map_eq_some_iff.mp read
        cases same
        obtain ⟨long, joined, counter, size⟩ :=
          read_takes (by omega) firstRead
        have later : moved.readSize + lengths.sum ≤ moved.size := by omega
        obtain ⟨last, same, restLong, restJoined, restCounter, restSize⟩ :=
          induction later restRead
        refine ⟨last, same, ?_, ?_, ?_, restSize.trans size⟩
        · rw [List.length_append, long, restLong]
        · rw [List.append_assoc, restJoined, joined]
        · rw [restCounter, counter, Nat.add_assoc]

/-- The parts of an upload from a stream lie one behind the other. -/
theorem uploadSequential_takes {lengths : List (List Nat)} {parts : List Bytes}
    (fresh : message.readSize = 0)
    (sent : uploadSequential SourceMessage.operations
      ((lengths.map List.sum).zip lengths) (.stream message) = some parts) :
    parts.map List.length = lengths.map List.sum ∧
      parts.flatten <+: message.rest := by
  induction lengths generalizing message parts with
  | nil =>
      cases sent
      exact ⟨rfl, List.nil_prefix⟩
  | cons first lengths induction =>
      simp only [List.map_cons, List.zip_cons_cons] at sent ⊢
      unfold uploadSequential at sent
      split at sent
      · cases sent
      · rename_i ended data part
        obtain ⟨others, restSent, same⟩ := Option.map_eq_some_iff.mp sent
        subst same
        obtain ⟨⟨read, bytes⟩, allRead, same⟩ :=
          Option.map_eq_some_iff.mp part
        cases same
        obtain ⟨last, here, long, joined, _⟩ :=
          readAll_takes (by rw [fresh, Nat.zero_add]) allRead
        subst here
        obtain ⟨restLong, rest, restJoined⟩ := induction rfl restSent
        refine ⟨?_, rest, ?_⟩
        · rw [List.map_cons, long, restLong]
        · rw [List.flatten_cons, List.append_assoc, restJoined]
          exact joined

end StreamMessage

/-- The newest of the versions that pass a test; of equally dated ones the
last in the list. -/
def newestOf (test : TGFSFileVersion → Bool) :
    List TGFSFileVersion → Option TGFSFileVersion
  | [] => none
  | version :: rest =>
      match newestOf test rest with
      | some best =>
          if test version ∧
              best.updatedAtTimestamp < version.updatedAtTimestamp then
            some version
          else some best
      | none => if test version then some version else none

section Newest

variable {test : TGFSFileVersion → Bool} {versions : List TGFSFileVersion}
  {version : TGFSFileVersion}

theorem newestOf_none :
    newestOf test versions = none ↔
      ∀ version ∈ versions, test version = false := by
  induction versions with
  | nil => simp [newestOf]
  | cons first versions induction =>
      rw [newestOf]
      cases found : newestOf test versions with
      | none =>
          rw [found] at induction
          simp only [List.mem_cons, forall_eq_or_imp, ← induction]
          simp
      | some best =>
          rw [found] at induction
          have others : ¬∀ version ∈ versions, test version = false := by
            intro fail
            cases induction.mpr fail
          dsimp only
          constructor
          · intro nothing
            split at nothing <;> cases nothing
          · intro fail
            exact absurd (fun other member =>
              fail other (List.mem_cons_of_mem _ member)) others

theorem newestOf_split (newest : newestOf test versions = some version) :
    ∃ front back, versions = front ++ version :: back ∧
      test version = true ∧
      (∀ other ∈ front, test other = true →
        other.updatedAtTimestamp ≤ version.updatedAtTimestamp) ∧
      ∀ other ∈ back, test other = true →
        other.updatedAtTimestamp < version.updatedAtTimestamp := by
  induction versions generalizing version with
  | nil => cases newest
  | cons first versions induction =>
      rw [newestOf] at newest
      cases found : newestOf test versions with
      | none =>
          rw [found] at newest
          have fail := newestOf_none.mp found
          obtain ⟨passes, same⟩ : test first = true ∧ first = version := by
            simpa using newest
          subst same
          refine ⟨[], versions, rfl, passes, nofun, ?_⟩
          intro other member passesToo
          rw [fail other member] at passesToo
          cases passesToo
      | some best =>
          rw [found] at newest
          obtain ⟨front, back, split_, passes, older, oldest⟩ :=
            induction found
          dsimp only at newest
          split at newest
          · rename_i ahead
            cases newest
            refine ⟨[], versions, rfl, ahead.1, nofun, ?_⟩
            intro other member passesToo
            rw [split_] at member
            rcases List.mem_append.mp member with early | late
            · exact lt_of_le_of_lt (older other early passesToo) ahead.2
            · rcases List.mem_cons.mp late with rfl | late
              · exact ahead.2
              · exact (oldest other late passesToo).trans ahead.2
          · rename_i behind
            cases newest
            refine ⟨first :: front, back, by rw [split_]; rfl, passes, ?_,
              oldest⟩
            intro other member passesToo
            rcases List.mem_cons.mp member with rfl | member
            · rw [not_and, not_lt] at behind
              exact behind passesToo
            · exact older other member passesToo

theorem find?_eq_newestOf (desc : TGFSFileDesc) :
    desc.sortedVersions.find? test = newestOf test desc.versions.values := by
  cases newest : newestOf test desc.versions.values with
  | none =>
      rw [List.find?_eq_none]
      intro version member
      rw [newestOf_none.mp newest version
        (desc.sortedVersions_perm.mem_iff.mp member)]
      exact Bool.false_ne_true
  | some version =>
      obtain ⟨front, back, values, passes, older, oldest⟩ :=
        newestOf_split newest
      exact TGFSFileDesc.find?_sortedVersions values passes older oldest

/-- A change that keeps the test and the dates keeps what is newest. -/
theorem newestOf_map (change : TGFSFileVersion → TGFSFileVersion)
    (tests : ∀ version, test (change version) = test version)
    (dates : ∀ version, (change version).updatedAtTimestamp =
      version.updatedAtTimestamp) :
    newestOf test (versions.map change) =
      (newestOf test versions).map change := by
  induction versions with
  | nil => rfl
  | cons first versions induction =>
      rw [List.map_cons, newestOf, newestOf, induction]
      cases newestOf test versions with
      | none =>
          simp only [Option.map_none, tests]
          split <;> rfl
      | some best =>
          simp only [Option.map_some, tests, dates]
          split <;> rfl

/-- A version that is added is the newest one unless one is dated after it. -/
theorem newestOf_append (passes : test version = true) :
    newestOf test (versions ++ [version]) =
      some (((newestOf test versions).filter fun other =>
        version.updatedAtTimestamp < other.updatedAtTimestamp).getD
          version) := by
  induction versions with
  | nil => simp [newestOf, passes]
  | cons first versions induction =>
      rw [List.cons_append, newestOf, newestOf, induction]
      cases newestOf test versions with
      | none =>
          by_cases good : test first = true
          · by_cases ahead : version.updatedAtTimestamp <
                first.updatedAtTimestamp
            · simp [Option.filter_some, good, ahead]
            · simp [Option.filter_some, good, ahead]
          · simp [good]
      | some best =>
          dsimp only
          by_cases ahead : test first = true ∧
              best.updatedAtTimestamp < first.updatedAtTimestamp
          · rw [if_pos ahead, Option.filter_some, Option.filter_some]
            by_cases late : version.updatedAtTimestamp <
                best.updatedAtTimestamp
            · simp [late, late.trans ahead.2, ahead]
            · by_cases after : version.updatedAtTimestamp <
                  first.updatedAtTimestamp
              · simp [late, ahead.1, after]
              · simp [late, ahead.1, after]
          · rw [if_neg ahead, Option.filter_some]
            by_cases late : version.updatedAtTimestamp <
                best.updatedAtTimestamp
            · simp [late, ahead]
            · have behind : ¬(test first = true ∧
                  version.updatedAtTimestamp < first.updatedAtTimestamp) := by
                rintro ⟨good, after⟩
                exact ahead ⟨good, by omega⟩
              simp [late, behind]

end Newest

namespace Contents

variable {contents : Contents} {repo : FDRepository}

theorem bytes_unsized (version : TGFSFileVersion) :
    contents.bytes repo version.unsized = contents.bytes repo version := rfl

theorem bytes_reread (version : TGFSFileVersion) :
    contents.bytes repo version.reread = contents.bytes repo version := rfl

theorem bytes_stampVersion (version : TGFSFileVersion) :
    contents.bytes repo (FDRepository.stampVersion repo.key version) =
      contents.bytes repo version := by
  unfold FDRepository.stampVersion
  split <;> rfl

theorem get?_deliver_of_not_mem {delivered : List (SentFileMessage × Bytes)}
    {messages : Dict Int Bytes} {messageId : Int}
    (other : ∀ item ∈ delivered, item.1.messageId ≠ messageId) :
    (deliver delivered messages).get? messageId =
      messages.get? messageId := by
  induction delivered with
  | nil => rfl
  | cons item delivered induction =>
      rw [deliver, Dict.get?_set, if_neg
        (other item List.mem_cons_self).symm]
      apply induction
      intro later member
      exact other later (List.mem_cons_of_mem _ member)

theorem get?_deliver {delivered : List (SentFileMessage × Bytes)}
    {messages : Dict Int Bytes}
    (apart : (delivered.map fun item => item.1.messageId).Nodup) :
    ∀ item ∈ delivered,
      (deliver delivered messages).get? item.1.messageId = some item.2 := by
  induction delivered with
  | nil => nofun
  | cons first delivered induction =>
      intro item member
      rw [List.map_cons, List.nodup_cons] at apart
      rcases List.mem_cons.mp member with rfl | later
      · rw [deliver, Dict.get?_set, if_pos rfl]
      · have different : item.1.messageId ≠ first.1.messageId := by
          intro same
          exact apart.1 (same ▸ List.mem_map_of_mem later)
        rw [deliver, Dict.get?_set, if_neg different]
        exact induction apart.2 item later

/-- What the contents of one state are to those of a later one: no bytes are
lost or changed. -/
def Extends (after before : Contents) : Prop :=
  (∀ messageId data, before.messages.get? messageId = some data →
    after.messages.get? messageId = some data) ∧
  ∀ versionId data, before.cached.get? versionId = some data →
    after.cached.get? versionId = some data

theorem Extends.bytes {after before : Contents}
    (kept : after.Extends before) {version : TGFSFileVersion}
    (present : (before.bytes repo version).isSome = true) :
    after.bytes repo version = before.bytes repo version := by
  obtain ⟨data, found⟩ := Option.isSome_iff_exists.mp present
  rw [found]
  unfold Contents.bytes at found ⊢
  split at found
  · rename_i pending
    rw [if_pos pending]
    split at found
    · rename_i held
      rw [if_pos held]
      exact kept.2 _ _ found
    · cases found
  · rename_i settled
    rw [if_neg settled]
    obtain ⟨parts, all, joined⟩ := Option.map_eq_some_iff.mp found
    have each := forall₂_of_mapM_some all
    have same : version.messageIds.mapM after.messages.get? = some parts := by
      apply mapM_of_forall₂
      exact each.imp fun messageId data here => kept.1 messageId data here
    rw [same, Option.map_some, joined]

end Contents

theorem PrimaryKind.parts_sum (kind : PrimaryKind) {size : Nat}
    (nonempty : 0 < size) : (kind.parts size).sum = size := by
  cases kind with
  | telegram premiumUpload =>
      unfold parts
      dsimp only
      rw [if_neg (by omega)]
      apply partition_sum nonempty
      split
      · exact by decide
      · exact by decide
  | discord maxPartBytes positive =>
      unfold parts planParts
      dsimp only
      rw [if_neg (by omega)]
      exact partition_sum nonempty positive

theorem PrimaryKind.parts_length_pos (kind : PrimaryKind) (size : Nat) :
    0 < (kind.parts size).length := by
  cases kind with
  | telegram premiumUpload =>
      unfold parts
      dsimp only
      split
      · exact Nat.one_pos
      · simp [partition]
  | discord maxPartBytes positive =>
      unfold parts planParts
      dsimp only
      split
      · exact Nat.one_pos
      · simp

/-- The parts that were delivered are found under their ids. -/
theorem Contents.mapM_deliver {messages : List SentFileMessage}
    {parts : List Bytes} {before : Dict Int Bytes}
    (equal : messages.length = parts.length)
    (apart : (messages.map SentFileMessage.messageId).Nodup) :
    (messages.map SentFileMessage.messageId).mapM
      (deliver (messages.zip parts) before).get? = some parts := by
  have ids : ((messages.zip parts).map fun item => item.1.messageId) =
      messages.map SentFileMessage.messageId := by
    rw [← List.map_fst_zip equal.le, List.map_map]
    simp [List.map_fst_zip equal.le]
  have found := @get?_deliver (messages.zip parts) before
    (by rw [ids]; exact apart)
  apply mapM_of_forall₂
  rw [List.forall₂_map_left_iff, List.forall₂_iff_zip]
  exact ⟨equal, fun {message data} member => found (message, data) member⟩

/-- A stream that is received in full: the announced bytes become those of
the new version, which can be served at once. -/
theorem Contents.receive_spec {contents after : Contents}
    {repo : FDRepository} {kind : PrimaryKind} {size : Nat}
    {chunks : List Bytes} {versionId : String} {intake : Intake}
    {result : UploadResult}
    (solid : 0 < size ∨ chunks.flatten = [])
    (received : contents.receive repo kind size chunks versionId intake =
      some (result, after)) (now : DateTime) :
    size ≤ chunks.flatten.length ∧ after.Extends contents ∧
      repo.readable (result.version versionId now) = true ∧
      after.bytes repo (result.version versionId now) =
        some (chunks.flatten.take size) := by
  unfold receive at received
  split at received
  · cases received
  · rename_i admits
    rw [not_not] at admits
    cases intake with
    | staged lengths =>
        obtain ⟨total, held, new⟩ := admits
        obtain ⟨⟨ended, data⟩, read, same⟩ :=
          Option.map_eq_some_iff.mp received
        cases same
        obtain ⟨⟨last, bytes⟩, allRead, same⟩ :=
          Option.map_eq_some_iff.mp read
        cases same
        obtain ⟨stream, _, long, joined, _⟩ := StreamMessage.readAll_takes
          (by rw [Nat.zero_add, total]) allRead
        have begins : bytes ++ stream.rest = chunks.flatten := joined
        rw [total] at long
        refine ⟨?_, ⟨fun _ _ here => here, ?_⟩, ?_, ?_⟩
        · rw [← begins, List.length_append]
          omega
        · intro other found here
          rw [Dict.get?_set, if_neg]
          · exact here
          · rintro rfl
            rw [new] at here
            cases here
        · simp [UploadResult.version, TGFSFileVersion.pendingVersion,
            FDRepository.readable, FDRepository.readableLocally, held]
        · rw [← begins, ← long, List.take_left]
          simp [Contents.bytes, UploadResult.version,
            TGFSFileVersion.pendingVersion, held, Dict.get?_set]
    | sent lengths messages =>
        obtain ⟨planned, count, apart, new⟩ := admits
        obtain ⟨parts, sent, same⟩ := Option.map_eq_some_iff.mp received
        cases same
        rw [← planned] at sent
        obtain ⟨sizes, rest, joined⟩ :=
          StreamMessage.uploadSequential_takes (by rfl) sent
        have begins : parts.flatten ++ rest = chunks.flatten := joined
        have long : parts.flatten.length = (kind.parts size).sum := by
          rw [List.length_flatten, sizes, planned]
        have total : parts.flatten.length = size := by
          by_cases nonempty : 0 < size
          · rw [long, kind.parts_sum nonempty]
          · have empty := solid.resolve_left nonempty
            rw [empty] at begins
            rw [(List.append_eq_nil_iff.mp begins).1, List.length_nil]
            omega
        have equal : messages.length = parts.length := by
          rw [count, ← planned, ← sizes, List.length_map]
        have idsOf : ((messages.zip parts).map fun item =>
            ({ item.1 with size := item.2.length } : SentFileMessage)).map
              SentFileMessage.messageId =
            messages.map SentFileMessage.messageId := by
          rw [List.map_map]
          conv_rhs => rw [← List.map_fst_zip equal.le, List.map_map]
          rfl
        refine ⟨?_, ⟨?_, fun _ _ here => here⟩, ?_, ?_⟩
        · rw [← begins, List.length_append]
          omega
        · intro messageId data here
          rw [get?_deliver_of_not_mem]
          · exact here
          · rintro item member rfl
            rw [new item.1 (List.of_mem_zip member).1] at here
            cases here
        · have filled : messages ≠ [] := by
            intro vacant
            have length := kind.parts_length_pos size
            rw [← count, vacant] at length
            cases length
          unfold FDRepository.readable TGFSFileVersion.isValid
          rw [UploadResult.version, TGFSFileVersion.fromSentFileMessage]
          dsimp only
          rw [idsOf]
          simp [filled]
        · rw [Contents.bytes, UploadResult.version,
            TGFSFileVersion.fromSentFileMessage]
          dsimp only
          rw [if_neg Bool.false_ne_true, idsOf, mapM_deliver equal apart,
            Option.map_some, ← begins, ← total, List.take_left]

namespace StoredFile

open FDRepository FileHistory

variable {repo : FDRepository} {state after : StoredFile}

variable {desc : TGFSFileDesc}

theorem Sound.names (sound : state.Sound repo) {file : FileRef}
    (here : state.history.file = some file)
    (describes : repo.Describes state.history.texts file desc) :
    ∀ version ∈ desc.versions.values, version.id ≠ INVALID_VERSION_ID := by
  intro version member
  have listed : version.reread ∈ state.history.recorded := by
    rw [recorded_of_describes here describes]
    exact List.mem_map_of_mem (desc.sortedVersions_perm.mem_iff.mpr member)
  exact sound.named version.reread listed

/-- The content is that of the newest version that can be served. -/
theorem content_newest {file : FileRef} (here : state.history.file = some file)
    (describes : repo.Describes state.history.texts file desc)
    (named : ∀ version ∈ desc.versions.values,
      version.id ≠ INVALID_VERSION_ID) (now : DateTime) :
    state.content repo now =
      (newestOf repo.readable desc.versions.values).elim (some [])
        (state.contents.bytes repo) := by
  obtain ⟨served, read, latest, versions⟩ :=
    get_present describes state.contents.sizes now
  unfold content
  rw [here, Option.bind_some, read]
  dsimp only
  unfold TGFSFileDesc.firstServed at latest
  rw [find?_eq_newestOf] at latest
  cases newest : newestOf repo.readable desc.versions.values with
  | none =>
      rw [newest] at latest
      have unserved : served.latestVersionId = INVALID_VERSION_ID := latest
      rw [latestBytes, if_pos unserved]
      rfl
  | some version =>
      rw [newest] at latest
      obtain ⟨front, back, values, passes, _⟩ := newestOf_split newest
      have member : version ∈ desc.versions.values := by
        rw [values]
        simp
      have readable : desc.versions.values.any repo.readable = true :=
        List.any_eq_true.mpr ⟨version, member, passes⟩
      rw [readable, if_pos rfl] at versions
      have listed := List.mem_map_of_mem
        (f := fun version : TGFSFileVersion => (version.id, version.reread))
        (desc.sortedVersions_perm.mem_iff.mpr member)
      rw [← versions] at listed
      obtain ⟨item, there, same⟩ := List.mem_map.mp listed
      obtain ⟨key, value⟩ := Prod.mk.injEq _ _ _ _ ▸ same
      have found : served.latestVersion? = some item.2 := by
        rw [TGFSFileDesc.latestVersion?, latest, Dict.get?_eq_some_iff]
        rw [show item = (version.id, item.2) from Prod.ext key rfl] at there
        exact there
      rw [latestBytes, if_neg (by rw [latest]; exact named version member),
        found, Option.bind_some, Option.elim_some,
        ← Contents.bytes_unsized item.2, value, Contents.bytes_reread]

theorem Sound.content (sound : state.Sound repo)
    (there : state.missing = false) :
    ∃ data, ∀ now, state.content repo now = some data := by
  rcases sound.described with absent | ⟨file, desc, here, describes⟩
  · rw [missing, absent] at there
    cases there
  · have names := sound.names here describes
    cases newest : newestOf repo.readable desc.versions.values with
    | none =>
        refine ⟨[], fun now => ?_⟩
        rw [content_newest here describes names, newest]
        rfl
    | some version =>
        obtain ⟨front, back, values, passes, _⟩ := newestOf_split newest
        have member : version ∈ desc.versions.values := by
          rw [values]
          simp
        have present := sound.present version.reread
          (by
            rw [recorded_of_describes here describes]
            exact List.mem_map_of_mem
              (desc.sortedVersions_perm.mem_iff.mpr member)) passes
        obtain ⟨data, found⟩ := Option.isSome_iff_exists.mp present
        refine ⟨data, fun now => ?_⟩
        rw [content_newest here describes names, newest, Option.elim_some,
          ← Contents.bytes_reread, found]

/-- The newest recorded version that can be served, if it is dated after the
instant; a version that is added then is hidden by it. -/
def rival (state : StoredFile) (repo : FDRepository) (now : DateTime) :
    Option TGFSFileVersion :=
  (newestOf repo.readable state.history.recorded).filter fun version =>
    now.ts < version.updatedAtTimestamp

/-- What an operation starts from lists the recorded versions, in their
order, if one of them can be served. -/
theorem start_newest (described : Described repo state.history)
    (sizes : Lookup → Int → Nat) (name : Name) (now : DateTime)
    (start : repo.start (presentAnswers state.history.texts sizes) name now
      state.history.file = .ok desc) :
    (newestOf repo.readable desc.versions.values).map
        TGFSFileVersion.unsized =
      newestOf repo.readable state.history.recorded := by
  rw [← newestOf_map TGFSFileVersion.unsized (fun _ => rfl) fun _ => rfl]
  rcases described with absent | ⟨file, stored, here, describes⟩
  · rw [absent] at start
    cases start
    rw [recorded, absent]
    rfl
  · rw [here] at start
    obtain ⟨served, read, _, versions⟩ := get_present describes sizes now
    cases read.symm.trans start
    have listed := congrArg (List.map Prod.snd) versions
    rw [List.map_map] at listed
    have values : desc.versions.values.map TGFSFileVersion.unsized =
        if stored.versions.values.any repo.readable then
          stored.sortedVersions.map TGFSFileVersion.reread
        else [] := by
      rw [Dict.values, List.map_map]
      refine Eq.trans listed ?_
      split
      · rw [List.map_map]
        rfl
      · rfl
    rw [values, recorded_of_describes here describes]
    split
    · rfl
    · rename_i nothing
      symm
      apply newestOf_none.mpr
      intro version member
      obtain ⟨origin, sorted, rfl⟩ := List.mem_map.mp member
      have stands := stored.sortedVersions_perm.mem_iff.mp sorted
      cases readable : repo.readable origin with
      | false => exact readable
      | true =>
          refine absurd ?_ nothing
          exact List.any_eq_true.mpr ⟨origin, stands, readable⟩

/-- What the descriptor that an append writes lists: what can be served of
the recorded versions, and the new one at the end. -/
theorem append_spec {name : Name} {result : UploadResult}
    {contents : Contents} {write : DescriptorWrite}
    (sound : state.Sound repo)
    (appended : state.append repo name result contents write = some after) :
    ∃ old file desc, after.contents = contents ∧
      write.versionId ≠ INVALID_VERSION_ID ∧
      after.history.file = some file ∧
      repo.Describes after.history.texts file desc ∧
      desc.versions.values = (old ++
        [result.version write.versionId write.now]).map
          (stampVersion repo.key) ∧
      (newestOf repo.readable old).map TGFSFileVersion.unsized =
        newestOf repo.readable state.history.recorded ∧
      ∀ version ∈ old, version.unsized ∈ state.history.recorded := by
  obtain ⟨⟨history, response⟩, written, rfl⟩ :=
    Option.map_eq_some_iff.mp appended
  obtain ⟨desc, added, start, starts, addition, _, named, absent, _, file,
    describes⟩ := FileHistory.append_spec sound.described written
  obtain ⟨_, _, versions, _⟩ := TGFSFileDesc.addVersion_ok addition
  refine ⟨desc.versions.values, _, _, rfl, named, file, describes, ?_,
    start_newest sound.described _ _ _ start, starts.recorded⟩
  change (added.versions.mapValues _).values = _
  rw [Dict.values_mapValues, versions, version_id,
    Dict.values_set_of_absent _ _ absent]

theorem stampVersion_updatedAtTimestamp (version : TGFSFileVersion) :
    (stampVersion repo.key version).updatedAtTimestamp =
      version.updatedAtTimestamp := by
  unfold TGFSFileVersion.updatedAtTimestamp
  rw [stampVersion_updatedAt]

section Append

variable {name : Name} {result : UploadResult} {contents : Contents}
  {write : DescriptorWrite}

/-- An append loses no bytes of the versions that can be served. -/
theorem append_sound (sound : state.Sound repo)
    (kept : contents.Extends state.contents)
    (present : repo.readable (result.version write.versionId write.now) =
      true → (contents.bytes repo
        (result.version write.versionId write.now)).isSome = true)
    (appended : state.append repo name result contents write = some after) :
    after.Sound repo := by
  obtain ⟨old, file, desc, here, named, there, describes, values, _, from_⟩ :=
    append_spec sound appended
  have sources : ∀ version ∈ after.history.recorded, ∃ source,
      (source.unsized ∈ state.history.recorded ∨
        source = result.version write.versionId write.now) ∧
      version = (stampVersion repo.key source).reread := by
    intro version member
    rw [recorded_of_describes there describes] at member
    obtain ⟨stamped, sorted, rfl⟩ := List.mem_map.mp member
    have listed := desc.sortedVersions_perm.mem_iff.mp sorted
    rw [values] at listed
    obtain ⟨source, among, rfl⟩ := List.mem_map.mp listed
    refine ⟨source, ?_, rfl⟩
    rcases List.mem_append.mp among with earlier | last
    · exact .inl (from_ source earlier)
    · exact .inr (List.mem_singleton.mp last)
  refine ⟨.inr ⟨file, desc, there, describes⟩, ?_, ?_⟩
  · intro version member
    obtain ⟨source, origin, rfl⟩ := sources version member
    change (stampVersion repo.key source).id ≠ _
    rw [stampVersion_id]
    rcases origin with recorded | rfl
    · exact sound.named source.unsized recorded
    · rw [version_id]
      exact named
  · intro version member readable
    obtain ⟨source, origin, rfl⟩ := sources version member
    have readableSource : repo.readable source = true := by
      rw [← readable_stampVersion]
      exact readable
    rw [Contents.bytes_reread, Contents.bytes_stampVersion, here]
    rcases origin with recorded | rfl
    · have there := sound.present source.unsized recorded readableSource
      rw [Contents.bytes_unsized] at there
      rw [kept.bytes there]
      exact there
    · exact present readableSource

/-- An appended version that can be served is served, unless it is hidden by
a rival. -/
theorem append_content (sound : state.Sound repo)
    (kept : contents.Extends state.contents)
    (readable : repo.readable (result.version write.versionId write.now) =
      true)
    (appended : state.append repo name result contents write = some after)
    (afterSound : after.Sound repo) (later : DateTime) :
    after.content repo later = (state.rival repo write.now).elim
      (contents.bytes repo (result.version write.versionId write.now))
      (state.contents.bytes repo) := by
  obtain ⟨old, file, desc, here, _, there, describes, values, newest, from_⟩ :=
    append_spec sound appended
  have date : (result.version write.versionId write.now).updatedAtTimestamp =
      write.now.ts := by
    unfold TGFSFileVersion.updatedAtTimestamp
    rw [version_updatedAt]
  rw [content_newest there describes (afterSound.names there describes),
    values, here,
    newestOf_map _ (readable_stampVersion repo)
      stampVersion_updatedAtTimestamp,
    newestOf_append readable, Option.map_some, Option.elim_some,
    Contents.bytes_stampVersion, rival, ← newest, date]
  cases best : newestOf repo.readable old with
  | none => rfl
  | some version =>
      rw [Option.map_some, Option.filter_some, Option.filter_some]
      change _ = Option.elim (if decide (write.now.ts <
        version.updatedAtTimestamp) = true then _ else _) _ _
      split
      · obtain ⟨front, back, split_, passes, _⟩ := newestOf_split best
        have member : version ∈ old := by
          rw [split_]
          simp
        have present := sound.present version.unsized
          (from_ version member) passes
        rw [Contents.bytes_unsized] at present
        rw [Option.getD_some, Option.elim_some, Contents.bytes_unsized,
          kept.bytes present]
      · rfl

/-- An upload from a stream that returns has found the announced bytes in
the stream, and they are served unless a rival hides them. -/
theorem uploadFromStream_spec {kind : PrimaryKind} {chunks : List Bytes}
    {size : Nat} {intake : Intake} (sound : state.Sound repo)
    (solid : 0 < size ∨ chunks.flatten = [])
    (uploaded : state.uploadFromStream repo kind name chunks size intake
      write = some after) :
    size ≤ chunks.flatten.length ∧ after.Sound repo ∧
      ∀ later, after.content repo later =
        (state.rival repo write.now).elim (some (chunks.flatten.take size))
          (state.contents.bytes repo) := by
  obtain ⟨⟨result, contents⟩, received, appended⟩ :=
    Option.bind_eq_some_iff.mp uploaded
  obtain ⟨enough, kept, readable, bytes⟩ :=
    Contents.receive_spec solid received write.now
  have afterSound : after.Sound repo := by
    apply append_sound sound kept _ appended
    intro _
    rw [bytes]
    rfl
  refine ⟨enough, afterSound, ?_⟩
  intro later
  rw [append_content sound kept readable appended afterSound later, bytes]

theorem recorded_of_missing (missing : state.missing = true) :
    state.history.recorded = [] := by
  unfold FileHistory.recorded
  rw [Option.isNone_iff_eq_none.mp missing]
  rfl

theorem rival_of_missing (missing : state.missing = true) (now : DateTime) :
    state.rival repo now = none := by
  rw [rival, recorded_of_missing missing]
  rfl

/-- A missing file that was touched is there, without bytes and without
rivals. -/
theorem touch_spec (sound : state.Sound repo) (missing : state.missing = true)
    (touched : state.touch repo name write = some after) :
    after.Sound repo ∧ after.missing = false ∧
      (∀ later, after.content repo later = some []) ∧
      ∀ now, after.rival repo now = none := by
  unfold touch at touched
  rw [if_pos missing] at touched
  have unreadable : repo.readable
      (UploadResult.empty.version write.versionId write.now) = false := rfl
  have afterSound : after.Sound repo := by
    refine append_sound sound ⟨fun _ _ here => here, fun _ _ here => here⟩ ?_
      touched
    intro readable
    rw [unreadable] at readable
    cases readable
  obtain ⟨old, file, desc, _, _, there, describes, values, _, from_⟩ :=
    append_spec sound touched
  have fresh : old = [] := by
    apply List.eq_nil_iff_forall_not_mem.mpr
    intro version member
    have recorded := from_ version member
    rw [recorded_of_missing missing] at recorded
    cases recorded
  have nothing : newestOf repo.readable desc.versions.values = none := by
    rw [values, fresh]
    exact (@newestOf_map _ [_] _ (readable_stampVersion repo)
      stampVersion_updatedAtTimestamp).trans rfl
  have present : after.missing = false := by
    unfold StoredFile.missing
    rw [there]
    rfl
  refine ⟨afterSound, present, ?_, ?_⟩
  · intro later
    rw [content_newest there describes (afterSound.names there describes),
      nothing]
    rfl
  · intro now
    rw [rival, recorded_of_describes there describes]
    have unread : newestOf repo.readable
        (desc.sortedVersions.map TGFSFileVersion.reread) = none := by
      apply newestOf_none.mpr
      intro version member
      obtain ⟨source, sorted, rfl⟩ := List.mem_map.mp member
      exact newestOf_none.mp nothing source
        (desc.sortedVersions_perm.mem_iff.mp sorted)
    rw [unread]
    rfl

end Append

end StoredFile

end Tgdcfs
