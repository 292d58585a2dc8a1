import Tgdcfs.Backends.DiscordUploadSlots

/-!
# What Discord uploads send

Until the source is read, its bytes are those of the full parts that were cut
off, of the buffer, and those still unread.  When an upload returns, its parts
are those that `plan_parts` announces.
-/

namespace Tgdcfs

open Lib

/-- Full parts and a last one, which is empty only when it is alone. -/
theorem planParts_eq {maxPartBytes count last : Nat}
    (positive : 0 < maxPartBytes) (inside : last ≤ maxPartBytes)
    (nonempty : count = 0 ∨ 0 < last) :
    planParts maxPartBytes ((count * maxPartBytes + last : Nat) : Int) =
      List.replicate count maxPartBytes ++ [last] := by
  unfold planParts
  split
  · rename_i nothing
    have empty : count * maxPartBytes + last = 0 := by omega
    have zero : last = 0 := by omega
    have alone : count = 0 := by omega
    subst zero alone
    rfl
  · rename_i something
    have more : 0 < last := by
      rcases nonempty with rfl | more
      · omega
      · exact more
    have parts : (count * maxPartBytes + last + maxPartBytes - 1) /
        maxPartBytes = count + 1 := by
      have shifted : count * maxPartBytes + last + maxPartBytes - 1 =
          last - 1 + (count + 1) * maxPartBytes := by
        rw [Nat.succ_mul]
        omega
      rw [shifted, Nat.add_mul_div_right _ _ positive,
        Nat.div_eq_of_lt (by omega), Nat.zero_add]
    simp only [Int.toNat_natCast, parts, Nat.add_sub_cancel,
      Nat.add_sub_cancel_left]

namespace DiscordUpload

/-- The parts cut off so far. -/
def contents (upload : DiscordUpload) : List (List UInt8) :=
  upload.tasks.map PartTask.data

/-- The bytes are where they should be while the source is read. -/
structure Cutting (maxPartBytes : Nat) (buffer : List UInt8)
    (upload : DiscordUpload) : Prop where
  bytes : upload.contents.flatten ++ buffer ++ upload.unread =
    upload.source
  remaining : upload.remaining =
    upload.size - upload.contents.flatten.length
  full : ∀ data ∈ upload.contents, data.length = maxPartBytes
  more : upload.contents ≠ [] → 0 < upload.remaining
  inside : (buffer.length : Int) ≤ upload.limit maxPartBytes

/-- All bytes are in the parts that were planned. -/
structure Whole (maxPartBytes : Nat) (upload : DiscordUpload) : Prop where
  bytes : upload.contents.flatten = upload.source
  sizes : upload.contents.map List.length =
    planParts maxPartBytes upload.size

def Cut (maxPartBytes : Nat) (upload : DiscordUpload) : Prop :=
  match upload.phase with
  | .opening => upload.Cutting maxPartBytes []
  | .acquiring => upload.Cutting maxPartBytes []
  | .reading data _ => upload.Cutting maxPartBytes data
  | .gathering _ => upload.Whole maxPartBytes
  | .closing (.sent messages) => upload.Whole maxPartBytes ∧
      upload.tasks.mapM PartTask.result = some messages
  | .ended (.sent messages) => upload.Whole maxPartBytes ∧
      upload.tasks.mapM PartTask.result = some messages
  | _ => True

structure Exact (maxPartBytes : Nat)
    (documents : Dict Int (String × List UInt8))
    (upload : DiscordUpload) : Prop where
  declared : upload.size = upload.source.length
  cut : upload.Cut maxPartBytes
  posted : ∀ task ∈ upload.tasks, ∀ messageId,
    task.state = .sent messageId →
      documents.get? messageId = some (task.name, task.data)

variable {maxPartBytes : Nat} {upload : DiscordUpload}

theorem limit_eq (declared : upload.size = upload.source.length) :
    upload.limit maxPartBytes = min (maxPartBytes : Int) upload.remaining :=
  if_pos (by omega)

theorem Cutting.unread_length {buffer : List UInt8}
    (cutting : upload.Cutting maxPartBytes buffer)
    (declared : upload.size = upload.source.length) :
    upload.remaining = buffer.length + upload.unread.length := by
  have total := congrArg List.length cutting.bytes
  have remaining := cutting.remaining
  simp only [List.length_append] at total
  omega

theorem contents_addPart (data : List UInt8) :
    (upload.addPart maxPartBytes data).contents =
      upload.contents ++ [data] := by
  simp [contents, addPart]

variable {data : List UInt8}

theorem Cutting.length_eq (cutting : upload.Cutting maxPartBytes data)
    (declared : upload.size = upload.source.length)
    (finished : upload.unread = [] ∨
      upload.limit maxPartBytes ≤ data.length) :
    (data.length : Int) = min (maxPartBytes : Int) upload.remaining := by
  have inside := cutting.inside
  have unread := cutting.unread_length declared
  rw [limit_eq declared] at inside finished
  rcases finished with nothing | full
  · rw [nothing, List.length_nil] at unread
    omega
  · omega

theorem Cutting.addPart (positive : 0 < maxPartBytes)
    (cutting : upload.Cutting maxPartBytes data)
    (declared : upload.size = upload.source.length)
    (finished : upload.unread = [] ∨
      upload.limit maxPartBytes ≤ data.length) :
    (upload.addPart maxPartBytes data).Cut maxPartBytes := by
  have length := cutting.length_eq declared finished
  have unread := cutting.unread_length declared
  have known : 0 ≤ upload.size := by omega
  have left := cutting.remaining
  by_cases last : upload.remaining - data.length ≤ 0
  · have phase : (upload.addPart maxPartBytes data).phase =
        .gathering false := if_pos (.inl ⟨known, last⟩)
    have nothing : upload.unread = [] := by
      apply List.eq_nil_of_length_eq_zero
      omega
    rw [Cut, phase]
    constructor
    · rw [contents_addPart, List.flatten_concat]
      have bytes := cutting.bytes
      rwa [nothing, List.append_nil] at bytes
    · have sizes : upload.contents.map List.length =
          List.replicate upload.contents.length maxPartBytes := by
        rw [List.eq_replicate_iff]
        simpa using cutting.full
      have total : upload.contents.flatten.length =
          upload.contents.length * maxPartBytes := by
        rw [List.length_flatten, sizes]
        simp
      have size : upload.size =
          ((upload.contents.length * maxPartBytes + data.length : Nat) :
            Int) := by
        rw [← total]
        omega
      rw [contents_addPart, List.map_append, sizes]
      change _ = planParts maxPartBytes upload.size
      rw [size, planParts_eq positive (by omega)]
      · rfl
      · by_cases first : upload.contents = []
        · exact .inl (by rw [first]; rfl)
        · have more := cutting.more first
          exact .inr (by omega)
  · have phase : (upload.addPart maxPartBytes data).phase = .acquiring := by
      apply if_neg
      rintro (⟨_, isOver⟩ | short)
      · exact last isOver
      · omega
    rw [Cut, phase]
    refine ⟨?_, ?_, ?_, ?_, ?_⟩
    · rw [contents_addPart, List.flatten_concat, List.append_nil]
      exact cutting.bytes
    · rw [contents_addPart, List.flatten_concat, List.length_append]
      change upload.remaining - data.length = upload.size - _
      push_cast
      omega
    · rw [contents_addPart]
      intro part member
      rcases List.mem_append.mp member with older | new
      · exact cutting.full part older
      · cases List.mem_singleton.mp new
        omega
    · intro _
      change 0 < upload.remaining - data.length
      omega
    · have same : (upload.addPart maxPartBytes data).size =
          (upload.addPart maxPartBytes data).source.length := declared
      rw [limit_eq same]
      change (0 : Int) ≤
        min (maxPartBytes : Int) (upload.remaining - data.length)
      omega

variable {shared sharedLater : DiscordShared}

theorem Cutting.partRead_eq (positive : 0 < maxPartBytes)
    {later : DiscordUpload} (cutting : upload.Cutting maxPartBytes data)
    (declared : upload.size = upload.source.length)
    (finished : upload.unread = [] ∨
      upload.limit maxPartBytes ≤ data.length)
    (result : upload.partRead maxPartBytes shared data =
      (later, sharedLater)) :
    later = upload.addPart maxPartBytes data ∧ sharedLater = shared := by
  unfold DiscordUpload.partRead at result
  split at result
  · rename_i isOver
    -- a source that keeps its promise never ends at the start of a part
    obtain ⟨rfl, others⟩ := isOver
    have more := cutting.more (by simpa [contents] using others)
    have length := cutting.length_eq declared finished
    rw [List.length_nil] at length
    omega
  · cases result
    exact ⟨rfl, rfl⟩

/-- Two stages of an upload that has read the same. -/
structure SameParts (before after : DiscordUpload) : Prop where
  contents : after.contents = before.contents
  source : after.source = before.source
  unread : after.unread = before.unread
  size : after.size = before.size
  remaining : after.remaining = before.remaining

theorem Cutting.later {later : DiscordUpload}
    (cutting : upload.Cutting maxPartBytes data)
    (same : upload.SameParts later) : later.Cutting maxPartBytes data := by
  refine ⟨?_, ?_, ?_, ?_, ?_⟩
  · rw [same.contents, same.unread, same.source]
    exact cutting.bytes
  · rw [same.contents, same.size, same.remaining]
    exact cutting.remaining
  · rw [same.contents]
    exact cutting.full
  · rw [same.contents, same.remaining]
    exact cutting.more
  · rw [limit, same.size, same.remaining]
    exact cutting.inside

theorem Whole.later {later : DiscordUpload}
    (whole : upload.Whole maxPartBytes) (same : upload.SameParts later) :
    later.Whole maxPartBytes := by
  constructor
  · rw [same.contents, same.source]
    exact whole.bytes
  · rw [same.contents, same.size]
    exact whole.sizes

theorem SameParts.enter (phase : DiscordPhase) :
    upload.SameParts (upload.enter phase) :=
  ⟨rfl, rfl, rfl, rfl, rfl⟩

theorem SameParts.cancelTasks (phase : DiscordPhase) :
    upload.SameParts (upload.cancelTasks.enter phase) := by
  refine ⟨?_, rfl, rfl, rfl, rfl⟩
  simp only [DiscordUpload.contents, DiscordUpload.cancelTasks,
    DiscordUpload.enter, List.map_map]
  rfl

theorem Cut.later {later : DiscordUpload} (cut : upload.Cut maxPartBytes)
    (same : upload.SameParts later) (phase : later.phase = upload.phase)
    (results : ∀ messages,
      upload.tasks.mapM PartTask.result = some messages →
        later.tasks = upload.tasks) : later.Cut maxPartBytes := by
  unfold Cut at cut ⊢
  rw [phase]
  split at cut
  · exact cut.later same
  · exact cut.later same
  · exact cut.later same
  · exact cut.later same
  · rw [results _ cut.2]
    exact ⟨cut.1.later same, cut.2⟩
  · rw [results _ cut.2]
    exact ⟨cut.1.later same, cut.2⟩
  · exact trivial

variable {documents : Dict Int (String × List UInt8)}

theorem Exact.grow {more : Dict Int (String × List UInt8)}
    (exact_ : upload.Exact maxPartBytes documents)
    (kept : ∀ messageId document,
      documents.get? messageId = some document →
        more.get? messageId = some document) :
    upload.Exact maxPartBytes more :=
  ⟨exact_.declared, exact_.cut, fun task member messageId sent =>
    kept _ _ (exact_.posted task member messageId sent)⟩

theorem Exact.task {more : Dict Int (String × List UInt8)}
    (exact_ : upload.Exact maxPartBytes documents) {part : Nat}
    {task : PartTask} {state : PartState} {later : DiscordUpload}
    (here : upload.tasks[part]? = some task) (pending : task.done = false)
    (tasks : later.tasks =
      upload.tasks.set part { task with state := state })
    (same : later.contents = upload.contents → upload.SameParts later)
    (phase : later.phase = upload.phase)
    (kept : ∀ messageId document,
      documents.get? messageId = some document →
        more.get? messageId = some document)
    (posted : ∀ messageId, state = .sent messageId →
      more.get? messageId = some (task.name, task.data)) :
    later.Exact maxPartBytes more := by
  have parts : upload.SameParts later := by
    apply same
    rw [contents, contents, tasks]
    exact map_set_of_eq PartTask.data here rfl
  refine ⟨?_, ?_, ?_⟩
  · rw [parts.size, parts.source]
    exact exact_.declared
  · apply exact_.cut.later parts phase
    intro messages results
    obtain ⟨messageId, sent⟩ :=
      sent_of_results results (List.mem_of_getElem? here)
    simp [PartTask.done, sent] at pending
  · rw [tasks]
    intro other member messageId sent
    rcases List.mem_or_eq_of_mem_set member with older | rfl
    · exact kept _ _ (exact_.posted other older messageId sent)
    · exact posted messageId sent

/-- The tasks stay what they are, but for requests to cancel them. -/
theorem Exact.enter (exact_ : upload.Exact maxPartBytes documents)
    {later : DiscordUpload} (same : upload.SameParts later)
    (tasks : later.tasks = upload.tasks ∨
      later.tasks = upload.tasks.map PartTask.cancel)
    (cut : later.Cut maxPartBytes) : later.Exact maxPartBytes documents := by
  refine ⟨?_, cut, ?_⟩
  · rw [same.size, same.source]
    exact exact_.declared
  · rcases tasks with unchanged | cancelled
    · rw [unchanged]
      exact exact_.posted
    · rw [cancelled]
      intro task member messageId sent
      obtain ⟨older, inside, rfl⟩ := List.mem_map.mp member
      exact exact_.posted older inside messageId sent

theorem Exact.partEnds {later : DiscordUpload} (positive : 0 < maxPartBytes)
    (cutting : upload.Cutting maxPartBytes data)
    (exact_ : upload.Exact maxPartBytes shared.documents)
    (finished : upload.unread = [] ∨
      upload.limit maxPartBytes ≤ data.length)
    (result : upload.partRead maxPartBytes shared data =
      (later, sharedLater)) :
    later.Exact maxPartBytes sharedLater.documents := by
  obtain ⟨rfl, rfl⟩ := cutting.partRead_eq positive exact_.declared
    finished result
  refine ⟨exact_.declared,
    cutting.addPart positive exact_.declared finished, ?_⟩
  intro task member messageId sent
  rcases List.mem_append.mp member with older | new
  · exact exact_.posted task older messageId sent
  · cases List.mem_singleton.mp new
    cases sent

theorem Exact.step {later : DiscordUpload} {action : DiscordUploadAction}
    (positive : 0 < maxPartBytes)
    (exact_ : upload.Exact maxPartBytes shared.documents)
    (moved : Moves maxPartBytes shared upload action later sharedLater) :
    later.Exact maxPartBytes sharedLater.documents := by
  have cut := exact_.cut
  unfold Cut at cut
  cases moved with
  | opened opening enters =>
      rw [opening] at cut
      refine exact_.enter (.enter _) (.inl rfl) ?_
      rcases enters with rfl | rfl
      · exact cut.later (.enter _)
      · exact trivial
  | acquired acquiring free more =>
      rw [acquiring] at cut
      refine exact_.enter ⟨rfl, rfl, rfl, rfl, rfl⟩ (.inl rfl) ?_
      exact cut.later ⟨rfl, rfl, rfl, rfl, rfl⟩
  | acquiredEmpty acquiring free empty result =>
      rw [acquiring] at cut
      have taken : DiscordUpload.SameParts upload
          { upload with acquired := upload.acquired + 1 } :=
        ⟨rfl, rfl, rfl, rfl, rfl⟩
      apply Exact.partEnds positive (cut.later taken) ?_ (.inr empty) result
      refine exact_.enter taken (.inl rfl) ?_
      exact exact_.cut.later taken rfl fun _ _ => rfl
  | @read _ data length reading asked there =>
      rw [reading] at cut
      refine ⟨exact_.declared, ⟨?_, cut.remaining, cut.full, cut.more, ?_⟩,
        exact_.posted⟩
      · calc
          upload.contents.flatten ++
              (data ++ upload.unread.take length) ++
              upload.unread.drop length
              = upload.contents.flatten ++ data ++
                (upload.unread.take length ++
                  upload.unread.drop length) := by
                simp only [List.append_assoc]
          _ = upload.source := by
                rw [List.take_append_drop]
                exact cut.bytes
      · rw [List.length_append, List.length_take, Nat.min_eq_left there]
        change ((data.length + length : Nat) : Int) ≤
          upload.limit maxPartBytes
        push_cast
        omega
  | partEnds reading finished result =>
      rw [reading] at cut
      exact exact_.partEnds positive cut finished result
  | yielded reading =>
      rw [reading] at cut
      refine exact_.enter (.enter _) (.inl rfl) ?_
      exact cut.later (.enter _)
  | abandoned reading =>
      refine exact_.enter ⟨?_, rfl, rfl, rfl, rfl⟩ (.inr rfl) trivial
      exact (SameParts.cancelTasks (.cleaning false)).contents
  | skipped here scheduled =>
      apply exact_.task here (by simp [PartTask.done, scheduled])
      · rfl
      · exact fun contents => ⟨contents, rfl, rfl, rfl, rfl⟩
      · rfl
      · exact fun _ _ known => known
      · simp
  | started here scheduled =>
      apply exact_.task here (by simp [PartTask.done, scheduled])
      · rfl
      · exact fun contents => ⟨contents, rfl, rfl, rfl, rfl⟩
      · rfl
      · exact fun _ _ known => known
      · simp
  | @sent _ part task messageId here running new =>
      apply exact_.task here (by simp [PartTask.done, running])
      · rfl
      · exact fun contents => ⟨contents, rfl, rfl, rfl, rfl⟩
      · rfl
      · intro other document known
        rw [Dict.get?_set, if_neg]
        · exact known
        · rintro rfl
          cases new.symm.trans known
      · rintro _ ⟨⟩
        rw [Dict.get?_set, if_pos rfl]
  | notSent here running ends =>
      apply exact_.task here (by simp [PartTask.done, running])
      · rfl
      · exact fun contents => ⟨contents, rfl, rfl, rfl, rfl⟩
      · rfl
      · exact fun _ _ known => known
      · rintro messageId rfl
        simp at ends
  | gathered gathering results =>
      rw [gathering] at cut
      refine exact_.enter (.enter _) (.inl rfl) ?_
      exact ⟨cut.later (.enter _), results⟩
  | fails waiting =>
      exact exact_.enter (.cancelTasks _) (.inr rfl) trivial
  | cancelGather gathering =>
      rw [gathering] at cut
      refine exact_.enter (.cancelTasks _) (.inr rfl) ?_
      exact cut.later (.cancelTasks _)
  | cancelClean cleaning =>
      exact exact_.enter (.cancelTasks _) (.inr rfl) trivial
  | cleaned cleaning done =>
      exact exact_.enter ⟨rfl, rfl, rfl, rfl, rfl⟩ (.inl rfl) trivial
  | interrupted cleaning done =>
      exact exact_.enter (.enter _) (.inl rfl) trivial
  | closed closing ends =>
      rw [closing] at cut
      refine exact_.enter (.enter _) (.inl rfl) ?_
      rcases ends with rfl | rfl
      · rename_i outcome
        cases outcome with
        | sent messages => exact ⟨cut.1.later (.enter _), cut.2⟩
        | raised => exact trivial
      · exact trivial

theorem Exact.begin (fileName : String) (source : List UInt8)
    (documents : Dict Int (String × List UInt8)) :
    (DiscordUpload.begin fileName source.length source).Exact maxPartBytes
      documents := by
  refine ⟨rfl, ⟨rfl, ?_, ?_, ?_, ?_⟩, ?_⟩
  · simp [DiscordUpload.begin, contents]
  · simp [DiscordUpload.begin, contents]
  · intro filled
    exact absurd rfl filled
  · rw [limit_eq rfl]
    simp [DiscordUpload.begin]
  · intro task member
    cases member

end DiscordUpload

end Tgdcfs
