import Tgdcfs.Core.StoredFileContent
import Tgdcfs.Upload.TeeBranchRuns

/-!
# Collecting a tee'd upload

The primary reads the version through a `TeeFileMessage`, which feeds what it
reads into one branch after the other, and each mirror uploads the stream of
its branch as a `FileMessageFromStream` of the announced size.  A stream that
ends or fails too early raises in the read that asks for more, so an upload
that returns has read every byte.
-/

namespace Tgdcfs

open Lib

/-- Parts that are read one behind the other through one `open`. -/
def readParts {σ : Type} (message : Message σ) :
    List (List Nat) → σ → Option (List Bytes)
  | [], _ => some []
  | lengths :: parts, state =>
      match readAll message lengths state with
      | none => none
      | some (state, data) => (readParts message parts state).map (data :: ·)

/-- What a store's `upload` has read of these chunks when it returns.  The
bytes of each part are asked for in the given lengths. -/
def mirrorUpload (kind : PrimaryKind) (size : Nat) (lengths : List (List Nat))
    (chunks : List Bytes) : Option (List Bytes) :=
  match kind with
  | .telegram _ =>
      uploadSequential SourceMessage.operations
        ((kind.parts size).zip lengths) (streamMessage size chunks)
  | .discord _ _ =>
      readParts SourceMessage.operations lengths (streamMessage size chunks)

inductive MirrorTask where
  | running
  | replica (replica : Replica) (parts : List Bytes)
  | failed

structure TeeMirror where
  kind : PrimaryKind
  stream : TeeStream
  task : MirrorTask

/-- `TeeFileMessage` and `TeeUpload`.  `taken` are the reads of the primary
that returned bytes, `feeding` the branches that the last of them has not been
fed into. -/
structure TeedVersion where
  size : Nat
  taken : List Bytes
  reading : Bool
  feeding : List String
  mirrors : Dict String TeeMirror

/-- `MirrorGroup.tee`; the keys of the targets are distinct. -/
def MirrorGroup.tee (targets : Dict String PrimaryKind) (size : Nat)
    (bufferBytes : Nat) : Option TeedVersion :=
  if targets.items = [] ∨ size = 0 then none
  else
    some
      { size := size
        taken := []
        reading := false
        feeding := []
        mirrors := targets.mapValues fun kind =>
          ⟨kind, .new bufferBytes, .running⟩ }

namespace TeedVersion

inductive Action where
  /-- `inner.read` has returned in a read of the primary. -/
  | read (data : Bytes)
  | feed
  | readReturns
  | wakeProducer (key : String)
  | next (key : String)
  | wakeConsumer (key : String)
  /-- The upload of a mirror returns, with the ids of its messages. -/
  | uploaded (key : String) (lengths : List (List Nat)) (ids : List Int)
  /-- It raises, or is cancelled. -/
  | uploadFails (key : String)
  | collect
  | abort

/-- The chunk that is fed. -/
def chunk (version : TeedVersion) : Bytes := version.taken.getLast?.getD []

/-- No branch holds the producer up. -/
def flowing (version : TeedVersion) : Bool :=
  version.mirrors.values.all fun mirror =>
    match mirror.stream.producer with
    | .idle => true
    | .waiting _ _ => false

def finish (version : TeedVersion) : TeedVersion :=
  { version with
    mirrors := version.mirrors.mapValues fun mirror =>
      { mirror with stream := mirror.stream.finish } }

/-- One turn at a branch. -/
def turn (version : TeedVersion) (key : String) (action : TeeStreamAction) :
    Option TeedVersion :=
  (version.mirrors.get? key).bind fun mirror =>
    (mirror.stream.step action).map fun stream =>
      { version with
        mirrors := version.mirrors.set key { mirror with stream := stream } }

/-- `run` closes the stream and `_run` detaches the branch, whatever
happened. -/
def ends (version : TeedVersion) (key : String) (mirror : TeeMirror)
    (task : MirrorTask) : TeedVersion :=
  { version with
    mirrors := version.mirrors.set key
      { mirror with
        stream := mirror.stream.close.detach
        task := task } }

def step (version : TeedVersion) : Action → Option TeedVersion
  | .read data =>
      if version.reading then none
      else if data = [] then some version
      else
        some { version with
          taken := version.taken ++ [data]
          reading := true
          feeding := version.mirrors.keys }
  | .feed =>
      match version.feeding with
      | [] => none
      | key :: feeding =>
          if version.flowing then
            turn { version with feeding := feeding } key (.feed version.chunk)
          else none
  | .readReturns =>
      if version.reading ∧ version.feeding = [] ∧ version.flowing then
        let returned := { version with reading := false }
        if version.size ≤ version.taken.flatten.length then
          some returned.finish
        else some returned
      else none
  | .wakeProducer key => version.turn key .wakeProducer
  | .next key => version.turn key .next
  | .wakeConsumer key => version.turn key .wakeConsumer
  | .uploaded key lengths ids =>
      (version.mirrors.get? key).bind fun mirror =>
        match mirror.task, mirror.stream.consumer with
        | .running, .idle =>
            if lengths.map List.sum = mirror.kind.parts version.size ∧
                ids.length = lengths.length then
              (mirrorUpload mirror.kind version.size lengths
                mirror.stream.delivered).map fun parts =>
                  version.ends key mirror
                    (.replica ⟨ids, parts.map List.length⟩ parts)
            else none
        | _, _ => none
  | .uploadFails key =>
      (version.mirrors.get? key).bind fun mirror =>
        match mirror.task with
        | .running => some (version.ends key mirror .failed)
        | _ => none
  | .collect =>
      if version.reading = false ∧ version.flowing then some version.finish
      else none
  | .abort =>
      some { version with
        mirrors := version.mirrors.mapValues fun mirror =>
          { mirror with stream := mirror.stream.detach } }

/-- What `collect` returns for a mirror, unless an error. -/
def collected (version : TeedVersion) (key : String) : Option Replica :=
  (version.mirrors.get? key).bind fun mirror =>
    match mirror.task with
    | .replica replica _ => some replica
    | _ => none

/-- The upload of the mirror has taken the whole version off its stream: as
many bytes as were announced, which are those that the primary read. -/
def ConsumedWhole (version : TeedVersion) (key : String) (replica : Replica) :
    Prop :=
  ∃ mirror parts, version.mirrors.get? key = some mirror ∧
    mirror.task = .replica replica parts ∧
    replica.partSizes = parts.map List.length ∧
    parts.flatten.length = version.size ∧
    parts.flatten <+: mirror.stream.delivered.flatten ∧
    parts.flatten = version.taken.flatten.take version.size

end TeedVersion

theorem readParts_takes {lengths : List (List Nat)} {message : StreamMessage}
    {parts : List Bytes}
    (room : message.readSize + (lengths.map List.sum).sum ≤ message.size)
    (read : readParts SourceMessage.operations lengths (.stream message) =
      some parts) :
    parts.map List.length = lengths.map List.sum ∧
      parts.flatten <+: message.rest := by
  induction lengths generalizing message parts with
  | nil =>
      cases read
      exact ⟨rfl, List.nil_prefix⟩
  | cons first lengths ih =>
      rw [List.map_cons, List.sum_cons] at room
      unfold readParts at read
      split at read
      · cases read
      · rename_i state data firstRead
        obtain ⟨others, restRead, rfl⟩ := Option.map_eq_some_iff.mp read
        obtain ⟨ended, same, long, joined, counter, size⟩ :=
          StreamMessage.readAll_takes (by omega) firstRead
        subst same
        obtain ⟨restLong, rest, restJoined⟩ := ih (by omega) restRead
        refine ⟨?_, rest, ?_⟩
        · rw [List.map_cons, List.map_cons, long, restLong]
        · rw [List.flatten_cons, List.append_assoc, restJoined, joined]

/-- An upload that returns has read the announced size off the stream. -/
theorem mirrorUpload_takes {kind : PrimaryKind} {size : Nat}
    (sized : 0 < size) {lengths : List (List Nat)}
    (planned : lengths.map List.sum = kind.parts size) {chunks parts : List Bytes}
    (sent : mirrorUpload kind size lengths chunks = some parts) :
    parts.flatten.length = size ∧ parts.flatten <+: chunks.flatten := by
  have total := kind.parts_sum sized
  have taken : parts.map List.length = lengths.map List.sum ∧
      parts.flatten <+: chunks.flatten := by
    unfold mirrorUpload at sent
    cases kind with
    | telegram premiumUpload =>
        rw [← planned] at sent
        exact StreamMessage.uploadSequential_takes rfl sent
    | discord maxPartBytes positive =>
        refine readParts_takes ?_ sent
        rw [planned, total]
        exact Nat.le_of_eq (Nat.zero_add _)
  refine ⟨?_, taken.2⟩
  rw [List.length_flatten, taken.1, planned, total]

namespace TeedVersion

/-- The branches have been fed what the primary read, but for the last chunk
where it is still due, and a replica is that many bytes off its stream. -/
structure Orderly (version : TeedVersion) : Prop where
  positive : 0 < version.size
  sound : ∀ key mirror, version.mirrors.get? key = some mirror →
    mirror.stream.Sound
  fed : ∀ key mirror, version.mirrors.get? key = some mirror →
    mirror.stream.fed ++
      (if key ∈ version.feeding then [version.chunk] else []) = version.taken
  once : version.feeding.Nodup
  settled : version.reading = false → version.feeding = []
  replicas : ∀ key mirror replica parts,
    version.mirrors.get? key = some mirror →
      mirror.task = .replica replica parts →
        replica.partSizes = parts.map List.length ∧
          parts.flatten.length = version.size ∧
          parts.flatten <+: mirror.stream.delivered.flatten

namespace Orderly

variable {version : TeedVersion}

theorem tee {targets : Dict String PrimaryKind} {size bufferBytes : Nat}
    (made : MirrorGroup.tee targets size bufferBytes = some version) :
    version.Orderly := by
  unfold MirrorGroup.tee at made
  split at made
  · cases made
  · rename_i needed
    cases made
    have fresh : ∀ key mirror, (targets.mapValues fun kind =>
        (⟨kind, .new bufferBytes, .running⟩ : TeeMirror)).get? key =
          some mirror →
        mirror.stream = .new bufferBytes ∧ mirror.task = .running := by
      intro key mirror found
      rw [Dict.get?_mapValues] at found
      obtain ⟨kind, _, rfl⟩ := Option.map_eq_some_iff.mp found
      exact ⟨rfl, rfl⟩
    constructor
    · exact Nat.pos_of_ne_zero fun zero => needed (.inr zero)
    · intro key mirror found
      rw [(fresh key mirror found).1]
      exact TeeStream.new_sound bufferBytes
    · intro key mirror found
      rw [(fresh key mirror found).1]
      rfl
    · exact List.nodup_nil
    · intro _
      rfl
    · intro key mirror replica parts found done
      rw [(fresh key mirror found).2] at done
      cases done

/-- Changing every stream in the same way, without feeding it. -/
theorem mapStreams (orderly : version.Orderly)
    {change : TeeStream → TeeStream}
    (sound : ∀ key mirror, version.mirrors.get? key = some mirror →
      (change mirror.stream).Sound)
    (fed : ∀ stream, (change stream).fed = stream.fed)
    (delivered : ∀ stream, (change stream).delivered = stream.delivered) :
    Orderly { version with
      mirrors := version.mirrors.mapValues fun mirror =>
        { mirror with stream := change mirror.stream } } := by
  have before : ∀ key mirror, (version.mirrors.mapValues fun mirror =>
      { mirror with stream := change mirror.stream }).get? key =
        some mirror → ∃ was, version.mirrors.get? key = some was ∧
          mirror = { was with stream := change was.stream } := by
    intro key mirror found
    rw [Dict.get?_mapValues] at found
    obtain ⟨was, there, rfl⟩ := Option.map_eq_some_iff.mp found
    exact ⟨was, there, rfl⟩
  refine { orderly with sound := ?_, fed := ?_, replicas := ?_ }
  · intro key mirror found
    obtain ⟨was, there, rfl⟩ := before key mirror found
    exact sound key was there
  · intro key mirror found
    obtain ⟨was, there, rfl⟩ := before key mirror found
    dsimp only
    rw [fed]
    exact orderly.fed key was there
  · intro key mirror replica parts found done
    obtain ⟨was, there, rfl⟩ := before key mirror found
    dsimp only
    rw [delivered]
    exact orderly.replicas key was replica parts there done

variable {key : String}

theorem replace (orderly : version.Orderly) {mirror next : TeeMirror}
    (found : version.mirrors.get? key = some mirror)
    (sound : next.stream.Sound) (fed : next.stream.fed = mirror.stream.fed)
    (replicas : ∀ replica parts, next.task = .replica replica parts →
      replica.partSizes = parts.map List.length ∧
        parts.flatten.length = version.size ∧
        parts.flatten <+: next.stream.delivered.flatten) :
    Orderly { version with mirrors := version.mirrors.set key next } := by
  have before : ∀ other running,
      (version.mirrors.set key next).get? other = some running →
        other = key ∧ running = next ∨
          version.mirrors.get? other = some running := by
    intro other running there
    rw [Dict.get?_set] at there
    by_cases here : other = key
    · rw [if_pos here] at there
      cases there
      exact .inl ⟨here, rfl⟩
    · rw [if_neg here] at there
      exact .inr there
  refine { orderly with sound := ?_, fed := ?_, replicas := ?_ }
  · intro other running there
    rcases before other running there with ⟨_, rfl⟩ | same
    · exact sound
    · exact orderly.sound other running same
  · intro other running there
    rcases before other running there with ⟨rfl, rfl⟩ | same
    · rw [fed]
      exact orderly.fed other mirror found
    · exact orderly.fed other running same
  · intro other running replica parts there done
    rcases before other running there with ⟨rfl, rfl⟩ | same
    · exact replicas replica parts done
    · exact orderly.replicas other running replica parts same done

variable {next : TeedVersion}

variable (orderly : version.Orderly)
include orderly

theorem turn {action : TeeStreamAction} (quiet : TeeStream.feeds action = [])
    (taken : version.turn key action = some next) : next.Orderly := by
  obtain ⟨mirror, found, moved⟩ := Option.bind_eq_some_iff.mp taken
  obtain ⟨stream, stepped, rfl⟩ := Option.map_eq_some_iff.mp moved
  obtain ⟨fed, delivered⟩ := TeeStream.step_adds stepped
  rw [quiet, List.append_nil] at fed
  refine orderly.replace found ((orderly.sound key mirror found).step stepped)
    fed ?_
  intro replica parts done
  obtain ⟨sizes, long, whole⟩ :=
    orderly.replicas key mirror replica parts found done
  refine ⟨sizes, long, whole.trans ?_⟩
  obtain ⟨more, joined⟩ := delivered
  exact ⟨more.flatten, by rw [← joined, List.flatten_append]⟩

theorem ends {mirror : TeeMirror}
    (found : version.mirrors.get? key = some mirror) {task : MirrorTask}
    (replicas : ∀ replica parts, task = .replica replica parts →
      replica.partSizes = parts.map List.length ∧
        parts.flatten.length = version.size ∧
        parts.flatten <+: mirror.stream.delivered.flatten) :
    (version.ends key mirror task).Orderly :=
  orderly.replace found (orderly.sound key mirror found).close.detach rfl
    replicas

theorem finish (flows : version.flowing = true) : version.finish.Orderly := by
  refine orderly.mapStreams ?_ (fun _ => rfl) fun _ => rfl
  intro key mirror found
  have idle : mirror.stream.producer = .idle := by
    have member := (Dict.mem_values_iff _ _).mpr ⟨key, found⟩
    have flowing := List.all_eq_true.mp flows mirror member
    cases producer : mirror.stream.producer with
    | idle => rfl
    | waiting data notified =>
        rw [producer] at flowing
        cases flowing
  exact (orderly.sound key mirror found).finish idle

theorem read (settled : version.reading = false) (data : Bytes) :
    Orderly { version with
      taken := version.taken ++ [data]
      reading := true
      feeding := version.mirrors.keys } := by
  refine { orderly with
    fed := ?_
    once := version.mirrors.nodup
    settled := fun absurd => by cases absurd }
  intro key mirror found
  have listed : key ∈ version.mirrors.keys :=
    List.mem_map.mpr ⟨_, (Dict.get?_eq_some_iff _ _ _).mp found, rfl⟩
  have before := orderly.fed key mirror found
  rw [orderly.settled settled] at before
  simp only [List.not_mem_nil, if_false, List.append_nil] at before
  rw [if_pos listed, before]
  simp [chunk]

theorem feed {feeding : List String} (due : version.feeding = key :: feeding)
    (taken : TeedVersion.turn { version with feeding := feeding } key
      (.feed version.chunk) = some next) : next.Orderly := by
  obtain ⟨mirror, found, moved⟩ := Option.bind_eq_some_iff.mp taken
  obtain ⟨stream, stepped, rfl⟩ := Option.map_eq_some_iff.mp moved
  obtain ⟨fed, delivered⟩ := TeeStream.step_adds stepped
  have once := orderly.once
  rw [due, List.nodup_cons] at once
  have before : ∀ other running, (version.mirrors.set key
      { mirror with stream := stream }).get? other = some running →
        other = key ∧ running = { mirror with stream := stream } ∨
          other ≠ key ∧ version.mirrors.get? other = some running := by
    intro other running there
    rw [Dict.get?_set] at there
    by_cases here : other = key
    · rw [if_pos here] at there
      cases there
      exact .inl ⟨here, rfl⟩
    · rw [if_neg here] at there
      exact .inr ⟨here, there⟩
  refine { orderly with
    sound := ?_, fed := ?_, once := once.2, settled := ?_, replicas := ?_ }
  · intro other running there
    rcases before other running there with ⟨_, rfl⟩ | ⟨_, same⟩
    · exact (orderly.sound key mirror found).step stepped
    · exact orderly.sound other running same
  · intro other running there
    rcases before other running there with ⟨rfl, rfl⟩ | ⟨apart, same⟩
    · have all := orderly.fed other mirror found
      rw [due, if_pos List.mem_cons_self] at all
      dsimp only
      rw [if_neg once.1, List.append_nil, fed]
      exact all
    · have all := orderly.fed other running same
      rw [due] at all
      simp only [List.mem_cons, apart, false_or] at all
      exact all
  · intro settled
    have absurd := orderly.settled settled
    rw [due] at absurd
    cases absurd
  · intro other running replica parts there done
    rcases before other running there with ⟨_, rfl⟩ | ⟨_, same⟩
    · obtain ⟨sizes, long, whole⟩ :=
        orderly.replicas key mirror replica parts found done
      obtain ⟨more, joined⟩ := delivered
      refine ⟨sizes, long, whole.trans ⟨more.flatten, ?_⟩⟩
      dsimp only
      rw [← joined, List.flatten_append]
    · exact orderly.replicas other running replica parts same done

theorem step {action : Action} (taken : version.step action = some next) :
    next.Orderly := by
  cases action with
  | read data =>
      simp only [TeedVersion.step] at taken
      split at taken
      · cases taken
      · rename_i settled
        split at taken
        · cases taken
          exact orderly
        · cases taken
          exact orderly.read (by simpa using settled) data
  | feed =>
      simp only [TeedVersion.step] at taken
      split at taken
      · cases taken
      · rename_i due
        split at taken
        · exact orderly.feed due taken
        · cases taken
  | readReturns =>
      simp only [TeedVersion.step] at taken
      split at taken
      · rename_i ready
        have returned : Orderly { version with reading := false } :=
          { orderly with settled := fun _ => ready.2.1 }
        split at taken
        · cases taken
          exact returned.finish ready.2.2
        · cases taken
          exact returned
      · cases taken
  | wakeProducer key | next key | wakeConsumer key =>
      exact orderly.turn rfl taken
  | uploaded key lengths ids =>
      obtain ⟨mirror, found, moved⟩ := Option.bind_eq_some_iff.mp taken
      split at moved
      · split at moved
        · rename_i planned
          obtain ⟨parts, sent, rfl⟩ := Option.map_eq_some_iff.mp moved
          obtain ⟨long, whole⟩ :=
            mirrorUpload_takes orderly.positive planned.1 sent
          refine orderly.ends found ?_
          intro replica others same
          cases same
          exact ⟨rfl, long, whole⟩
        · cases moved
      · cases moved
  | uploadFails key =>
      obtain ⟨mirror, found, moved⟩ := Option.bind_eq_some_iff.mp taken
      split at moved
      · cases moved
        refine orderly.ends found ?_
        intro replica parts absurd
        cases absurd
      · cases moved
  | collect =>
      simp only [TeedVersion.step] at taken
      split at taken
      · rename_i ready
        cases taken
        exact orderly.finish ready.2
      · cases taken
  | abort =>
      cases taken
      refine orderly.mapStreams ?_ (fun _ => rfl) fun _ => rfl
      intro key mirror found
      exact (orderly.sound key mirror found).detach

theorem consumedWhole {replica : Replica}
    (collected : version.collected key = some replica) :
    version.ConsumedWhole key replica := by
  obtain ⟨mirror, found, outcome⟩ := Option.bind_eq_some_iff.mp collected
  split at outcome
  · rename_i _ parts done
    cases outcome
    obtain ⟨sizes, long, whole⟩ :=
      orderly.replicas key mirror replica parts found done
    refine ⟨mirror, parts, found, done, sizes, long, whole, ?_⟩
    have fed := orderly.fed key mirror found
    have read : parts.flatten <+: version.taken.flatten := by
      refine (whole.trans (orderly.sound key mirror found).in_order).trans ?_
      rw [← fed, List.flatten_append]
      exact List.prefix_append _ _
    rw [← long]
    exact List.prefix_iff_eq_take.mp read
  · cases outcome

end Orderly

end TeedVersion

/-- Tee branches neither lose, reorder nor hold up bytes, and a mirror whose
replica is collected has consumed the whole version. -/
theorem tee_loses_nothing :
    (∀ capacity stream,
      Reachable TeeStream.step (.new capacity) stream → stream.Faithful) ∧
    ∀ targets size bufferBytes version reached,
      MirrorGroup.tee targets size bufferBytes = some version →
        Reachable TeedVersion.step version reached →
          ∀ key replica, reached.collected key = some replica →
            reached.ConsumedWhole key replica := by
  constructor
  · intro capacity stream reachable
    exact (TeeStream.reachable_sound reachable).faithful
  · intro targets size bufferBytes version reached made reachable key replica
      collected
    have orderly : reached.Orderly :=
      reachable.invariant (fun _ _ _ holds taken => holds.step taken)
        (.tee made)
    exact orderly.consumedWhole collected

/-- One Discord mirror with attachments of two bytes. -/
def teeTargets : Dict String PrimaryKind :=
  Dict.empty.set "discord" (.discord 2 Nat.two_pos)

/-- Three bytes through a branch of two, which holds the producer up once. -/
def teeRun : List TeedVersion.Action :=
  [.read [1, 2], .feed, .readReturns, .read [3], .feed, .next "discord",
    .wakeProducer "discord", .readReturns, .next "discord",
    .uploaded "discord" [[1, 1], [1]] [40, 41], .collect]

theorem teeRun_loses_nothing :
    ∃ version reached, MirrorGroup.tee teeTargets 3 2 = some version ∧
      run TeedVersion.step version teeRun = some reached ∧
      reached.collected "discord" = some ⟨[40, 41], [2, 1]⟩ ∧
      reached.ConsumedWhole "discord" ⟨[40, 41], [2, 1]⟩ ∧
      (∀ stream, Reachable TeeStream.step (.new 2) stream →
        stream.Faithful) := by
  exact ⟨_, _, rfl, rfl, rfl,
    tee_loses_nothing.2 teeTargets 3 2 _ _ rfl ⟨teeRun, rfl⟩ _ _ rfl,
    tee_loses_nothing.1 2⟩

end Tgdcfs
