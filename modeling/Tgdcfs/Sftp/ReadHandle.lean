import Tgdcfs.Core.PrefetchingChain
import Tgdcfs.Lib.Run

/-!
# Reading through an SFTP handle

A handle for reading keeps one download, the bytes that were received but not
yet asked for, and the offset these begin at.  A read that continues there,
or a little further on, uses the download; any other one opens a new download
of the file at the path.

Reads should show the content the file had when the handle was opened.  They
do as long as each download delivers that content to its end or raises, and
no read goes on with a download that has raised.
-/

namespace Tgdcfs

open Lib

/-- Longer gaps open a new download. -/
def SEEK_FORWARD_THRESHOLD : Nat := 1024 * 1024

/-- The bytes received, what the download has still to give, and the error it
raised on the way. -/
structure Filled (ε : Type*) where
  buffer : List UInt8
  stream : ByteStream ε
  raised : Option ε

/-- The loop of `_consume`.  An empty chunk is taken for the end; a download
that has raised is at its end. -/
def fill {ε : Type*} (count : Nat) (error : Option ε) :
    List (List UInt8) → List UInt8 → Filled ε
  | [], buffer =>
      if count ≤ buffer.length then ⟨buffer, ⟨[], error⟩, none⟩
      else ⟨buffer, ⟨[], none⟩, error⟩
  | chunk :: chunks, buffer =>
      if count ≤ buffer.length then ⟨buffer, ⟨chunk :: chunks, error⟩, none⟩
      else if chunk = [] then ⟨buffer, ⟨chunks, error⟩, none⟩
      else fill count error chunks (buffer ++ chunk)

structure ReadHandle (ε : Type*) where
  size : Nat
  stream : Option (ByteStream ε)
  pos : Nat
  buffer : List UInt8

/-- A call on the handle; a read comes with what `Ops.download` answers if it
is asked for the path now. -/
inductive HandleCall (ε : Type*) where
  | read (offset : Nat) (size : Int)
      (download : Except ε (ByteStream ε))
  | close

namespace ReadHandle

variable {ε : Type*}

/-- As `_open_for_read` makes it. -/
def opened (size : Nat) : ReadHandle ε := ⟨size, none, 0, []⟩

def take (handle : ReadHandle ε) (count : Nat) :
    ReadHandle ε × Except ε (List UInt8) :=
  let data := handle.buffer.take count
  ({ handle with
      buffer := handle.buffer.drop data.length
      pos := handle.pos + data.length }, .ok data)

def consume (handle : ReadHandle ε) (count : Nat) :
    ReadHandle ε × Except ε (List UInt8) :=
  match handle.stream with
  | none => handle.take count
  | some stream =>
      let filled := fill count stream.error stream.chunks handle.buffer
      let received : ReadHandle ε :=
        { handle with buffer := filled.buffer, stream := some filled.stream }
      match filled.raised with
      | some error => (received, .error error)
      | none => received.take count

def reopen (handle : ReadHandle ε) (offset : Nat)
    (download : Except ε (ByteStream ε)) : ReadHandle ε × Except ε Unit :=
  let closed : ReadHandle ε :=
    { handle with stream := none, buffer := [], pos := offset }
  match download with
  | .error error => (closed, .error error)
  | .ok stream => ({ closed with stream := some stream }, .ok ())

/-- Whether a read there opens a new download. -/
def Reopens (handle : ReadHandle ε) (offset : Nat) : Prop :=
  handle.stream.isNone ∨ offset < handle.pos ∨
    SEEK_FORWARD_THRESHOLD < offset - handle.pos

instance (handle : ReadHandle ε) (offset : Nat) :
    Decidable (handle.Reopens offset) :=
  inferInstanceAs (Decidable (_ ∨ _ ∨ _))

def read (handle : ReadHandle ε) (offset : Nat) (size : Int)
    (download : Except ε (ByteStream ε)) :
    ReadHandle ε × Except ε (List UInt8) :=
  if size ≤ 0 ∨ handle.size ≤ offset then (handle, .ok [])
  else if handle.Reopens offset then
    match handle.reopen offset download with
    | (closed, .error error) => (closed, .error error)
    | (reopened, .ok ()) => reopened.consume size.toNat
  else if handle.pos < offset then
    match handle.consume (offset - handle.pos) with
    | (broken, .error error) => (broken, .error error)
    | (skipped, .ok data) =>
        if data.length < offset - handle.pos then (skipped, .ok [])
        else skipped.consume size.toNat
  else handle.consume size.toNat

def close (handle : ReadHandle ε) : ReadHandle ε :=
  { handle with stream := none, buffer := [] }

def step (handle : ReadHandle ε) : HandleCall ε → Option (ReadHandle ε)
  | .read offset size download => some (handle.read offset size download).1
  | .close => some handle.close

/-- The download gives the rest of the content, or raises on the way; no
empty chunk comes before the end. -/
structure Delivers (rest : List UInt8) (stream : ByteStream ε) : Prop where
  begins : stream.chunks.flatten <+: rest
  whole : stream.error = none → stream.chunks.flatten = rest
  solid : ∀ before after, stream.chunks = before ++ [] :: after →
    before.flatten = rest

/-- The download is at its end, but not at the end of the file. -/
def EndedEarly (handle : ReadHandle ε) : Prop :=
  (∃ stream, handle.stream = some stream ∧ stream.chunks = [] ∧
    stream.error = none) ∧
    handle.pos + handle.buffer.length < handle.size

/-- Nothing disturbs the call: a new download delivers the content the handle
was opened on, and a download that has ended early, having raised, is not
read beyond what was received. -/
def Undisturbed (content : List UInt8) (handle : ReadHandle ε) :
    HandleCall ε → Prop
  | .close => True
  | .read offset size download =>
      0 < size → offset < handle.size →
        (handle.Reopens offset → ∀ stream, download = .ok stream →
          Delivers (content.drop offset) stream) ∧
        (¬handle.Reopens offset → handle.EndedEarly →
          offset + size.toNat ≤ handle.pos + handle.buffer.length)

/-- The state of a handle on the content. -/
structure Tracks (content : List UInt8) (handle : ReadHandle ε) : Prop where
  size : handle.size = content.length
  buffer : handle.buffer <+: content.drop handle.pos
  stream : ∀ stream, handle.stream = some stream →
    Delivers (content.drop (handle.pos + handle.buffer.length)) stream ∨
      stream.chunks = [] ∧ stream.error = none

theorem drop_of_isPrefix {bytes tail chunk : List UInt8}
    (begins : bytes <+: tail) (next : chunk <+: tail.drop bytes.length) :
    bytes ++ chunk <+: tail := by
  obtain ⟨rest, rfl⟩ := begins
  rw [List.drop_left] at next
  exact (List.prefix_append_right_inj bytes).mpr next

/-- The loop receives a beginning of what is left, and stops short of the
count only at the end of it. -/
theorem fill_spec (count : Nat) {tail : List UInt8} {error : Option ε} :
    ∀ {chunks : List (List UInt8)} {buffer : List UInt8},
      buffer <+: tail → Delivers (tail.drop buffer.length) ⟨chunks, error⟩ →
        (fill count error chunks buffer).buffer <+: tail ∧
        ((fill count error chunks buffer).raised = none →
          Delivers (tail.drop (fill count error chunks buffer).buffer.length)
              (fill count error chunks buffer).stream ∧
            (count ≤ (fill count error chunks buffer).buffer.length ∨
              (fill count error chunks buffer).buffer = tail)) ∧
        ∀ raised, (fill count error chunks buffer).raised = some raised →
          (fill count error chunks buffer).stream.chunks = [] ∧
            (fill count error chunks buffer).stream.error = none := by
  intro chunks
  induction chunks with
  | nil =>
      intro buffer begins delivers
      rw [fill]
      split
      · rename_i enough
        exact ⟨begins, fun _ => ⟨delivers, .inl enough⟩, nofun⟩
      · refine ⟨begins, ?_, fun _ _ => ⟨rfl, rfl⟩⟩
        intro healthy
        have whole : [] = tail.drop buffer.length := delivers.whole healthy
        have all : buffer = tail := by
          obtain ⟨rest, rfl⟩ := begins
          rw [List.drop_left] at whole
          rw [← whole, List.append_nil]
        refine ⟨⟨List.nil_prefix, fun _ => whole, ?_⟩, .inr all⟩
        intro before after absurd
        exact (List.append_ne_nil_of_right_ne_nil _ (List.cons_ne_nil _ _)
          absurd.symm).elim
  | cons chunk chunks ih =>
      intro buffer begins delivers
      rw [fill]
      split
      · rename_i enough
        exact ⟨begins, fun _ => ⟨delivers, .inl enough⟩, nofun⟩
      · split
        · -- An empty chunk comes at the end of the content only.
          rename_i empty
          subst empty
          have finished : [] = tail.drop buffer.length :=
            delivers.solid [] chunks rfl
          have all : buffer = tail := by
            obtain ⟨rest, rfl⟩ := begins
            rw [List.drop_left] at finished
            rw [← finished, List.append_nil]
          refine ⟨begins, fun _ => ⟨⟨delivers.begins, delivers.whole, ?_⟩,
            .inr all⟩, nofun⟩
          intro before after parts
          exact delivers.solid ([] :: before) after
            (congrArg (List.cons []) parts)
        · have next : chunk <+: tail.drop buffer.length :=
            (List.prefix_append chunk chunks.flatten).trans delivers.begins
          apply ih (drop_of_isPrefix begins next)
          obtain ⟨later, splits⟩ := next
          have rest : tail.drop (buffer ++ chunk).length = later := by
            rw [List.length_append, ← List.drop_drop, ← splits,
              List.drop_left]
          rw [rest]
          obtain ⟨front, whole, solid⟩ := delivers
          rw [← splits] at front whole solid
          refine ⟨(List.prefix_append_right_inj chunk).mp front, ?_, ?_⟩
          · intro healthy
            exact List.append_cancel_left (whole healthy)
          · intro before after parts
            exact List.append_cancel_left (solid (chunk :: before) after
              (congrArg (List.cons chunk) parts))

section Tracking

variable {content : List UInt8} {handle : ReadHandle ε}

theorem take_reach (handle : ReadHandle ε) (count : Nat) :
    (handle.take count).1.pos + (handle.take count).1.buffer.length =
      handle.pos + handle.buffer.length := by
  have short : (handle.buffer.take count).length ≤ handle.buffer.length :=
    List.length_take_le' _ _
  simp only [take, List.length_drop]
  omega

theorem Tracks.take (tracks : handle.Tracks content) (count : Nat) :
    (handle.take count).1.Tracks content := by
  refine ⟨tracks.size, ?_, ?_⟩
  · obtain ⟨rest, splits⟩ := tracks.buffer
    refine ⟨rest, ?_⟩
    change handle.buffer.drop (handle.buffer.take count).length ++ rest =
      content.drop (handle.pos + (handle.buffer.take count).length)
    rw [← List.drop_drop, ← splits,
      List.drop_append_of_le_length (List.length_take_le' _ _)]
  · intro stream open_
    rw [take_reach]
    exact tracks.stream stream open_

theorem Tracks.taken (tracks : handle.Tracks content) {count : Nat}
    (enough : count ≤ handle.buffer.length ∨
      handle.buffer = content.drop handle.pos) :
    handle.buffer.take count = (content.drop handle.pos).take count := by
  rcases enough with enough | whole
  · obtain ⟨rest, splits⟩ := tracks.buffer
    rw [← splits, List.take_append_of_le_length enough]
  · rw [whole]

variable {stream : ByteStream ε}

theorem Tracks.delivers (tracks : handle.Tracks content)
    (healthy : ¬handle.EndedEarly) (open_ : handle.stream = some stream) :
    Delivers (content.drop (handle.pos + handle.buffer.length)) stream := by
  rcases tracks.stream stream open_ with delivers | ⟨chunks, error⟩
  · exact delivers
  · have late : ¬handle.pos + handle.buffer.length < handle.size :=
      fun early => healthy ⟨⟨stream, open_, chunks, error⟩, early⟩
    rw [tracks.size] at late
    obtain ⟨chunks', error'⟩ := stream
    cases chunks
    cases error
    rw [List.drop_eq_nil_of_le (Nat.le_of_not_lt late)]
    refine ⟨List.nil_prefix, fun _ => rfl, ?_⟩
    intro before after absurd
    exact (List.append_ne_nil_of_right_ne_nil _ (List.cons_ne_nil _ _)
      absurd.symm).elim

/-- What a successful `_consume` gives, and where the handle stands then. -/
structure Consumed (content : List UInt8) (handle : ReadHandle ε)
    (count : Nat) (result : ReadHandle ε × Except ε (List UInt8)) :
    Prop where
  tracks : result.1.Tracks content
  open_ : ∃ stream, result.1.stream = some stream
  data : ∀ data, result.2 = .ok data →
    data = (content.drop handle.pos).take count ∧
      result.1.pos = handle.pos + data.length ∧
      (result.1.EndedEarly → handle.EndedEarly ∧
        result.1.pos + result.1.buffer.length =
          handle.pos + handle.buffer.length)

variable (tracks : handle.Tracks content)
include tracks

theorem Tracks.consume_broken (broken : handle.EndedEarly) {count : Nat}
    (received : count ≤ handle.buffer.length) :
    Consumed content handle count (handle.consume count) := by
  have same : handle.consume count = handle.take count := by
    obtain ⟨⟨stream, open_, chunks, error⟩, _⟩ := broken
    obtain ⟨chunks', error'⟩ := stream
    cases chunks
    cases error
    unfold consume
    rw [open_]
    dsimp only
    rw [fill, if_pos received, ← open_]
  rw [same]
  obtain ⟨⟨stream, open_, _⟩, _⟩ := id broken
  refine ⟨tracks.take count, ⟨stream, open_⟩, ?_⟩
  rintro data taken
  cases taken
  exact ⟨tracks.taken (.inl received), rfl, fun _ =>
    ⟨broken, take_reach handle count⟩⟩

theorem Tracks.consume_healthy (healthy : ¬handle.EndedEarly)
    (open_ : handle.stream = some stream) (count : Nat) :
    Consumed content handle count (handle.consume count) := by
  have delivers := tracks.delivers healthy open_
  rw [← List.drop_drop] at delivers
  obtain ⟨begins, quiet, loud⟩ :=
    fill_spec count tracks.buffer delivers
  unfold consume
  rw [open_]
  dsimp only
  generalize fill count stream.error stream.chunks handle.buffer = filled
    at begins quiet loud
  cases raised : filled.raised with
  | some error =>
      refine ⟨⟨tracks.size, begins, ?_⟩, ⟨_, rfl⟩, nofun⟩
      rintro last ended
      cases ended
      exact .inr (loud error raised)
  | none =>
      obtain ⟨delivers, enough⟩ := quiet raised
      have received : ReadHandle.Tracks content
          { handle with
              buffer := filled.buffer
              stream := some filled.stream } := by
        refine ⟨tracks.size, begins, ?_⟩
        rintro last open_
        cases open_
        rw [← List.drop_drop]
        exact .inl delivers
      refine ⟨received.take count, ⟨_, rfl⟩, ?_⟩
      rintro data taken
      cases taken
      refine ⟨received.taken enough, rfl, ?_⟩
      -- A healthy download ends with the file, so it did not end early.
      rintro ⟨⟨last, open_, chunks, error⟩, early⟩
      cases open_
      have whole := delivers.whole error
      rw [chunks, List.drop_drop] at whole
      have late := List.drop_eq_nil_iff.mp whole.symm
      rw [take_reach] at early
      have size : handle.size = content.length := tracks.size
      change handle.pos + filled.buffer.length < handle.size at early
      omega

theorem Tracks.consume (count : Nat) (open_ : handle.stream = some stream)
    (safe : handle.EndedEarly → count ≤ handle.buffer.length) :
    Consumed content handle count (handle.consume count) := by
  by_cases broken : handle.EndedEarly
  · exact tracks.consume_broken broken (safe broken)
  · exact tracks.consume_healthy broken open_ count

theorem Tracks.reopen {offset : Nat} (inside : offset < handle.size)
    (delivers : Delivers (content.drop offset) stream) (count : Nat) :
    Consumed content { handle with
        stream := some stream
        buffer := []
        pos := offset } count
      (ReadHandle.consume { handle with
        stream := some stream
        buffer := []
        pos := offset } count) := by
  have reopened : ReadHandle.Tracks content { handle with
      stream := some stream
      buffer := []
      pos := offset } := by
    refine ⟨tracks.size, List.nil_prefix, ?_⟩
    rintro other open_
    cases open_
    exact .inl delivers
  refine reopened.consume_healthy ?_ rfl count
  rintro ⟨⟨other, open_, chunks, error⟩, _⟩
  cases open_
  have whole := delivers.whole error
  rw [chunks] at whole
  have late := List.drop_eq_nil_iff.mp whole.symm
  have size : handle.size = content.length := tracks.size
  omega

/-- A read that nothing disturbs gives the slice of the content. -/
theorem Tracks.read {offset : Nat} {size : Int}
    {download : Except ε (ByteStream ε)}
    (fine : Undisturbed content handle (.read offset size download)) :
    (handle.read offset size download).1.Tracks content ∧
      ∀ data, (handle.read offset size download).2 = .ok data →
        data = (content.drop offset).take size.toNat := by
  have whole := tracks.size
  unfold ReadHandle.read
  by_cases nothing : size ≤ 0 ∨ handle.size ≤ offset
  · rw [if_pos nothing]
    refine ⟨tracks, ?_⟩
    rintro data read
    cases read
    rcases nothing with closed | behind
    · rw [Int.toNat_of_nonpos closed, List.take_zero]
    · rw [List.drop_eq_nil_of_le (whole ▸ behind), List.take_nil]
  have positive : 0 < size := by omega
  have inside : offset < handle.size := by omega
  obtain ⟨delivers, received⟩ := fine positive inside
  rw [if_neg nothing]
  by_cases reopens : handle.Reopens offset
  · rw [if_pos reopens]
    cases answer : download with
    | error error =>
        refine ⟨⟨tracks.size, List.nil_prefix, nofun⟩, nofun⟩
    | ok stream =>
        have consumed := tracks.reopen inside
          (delivers reopens stream answer) size.toNat
        exact ⟨consumed.tracks, fun data read =>
          (consumed.data data read).1⟩
  rw [if_neg reopens]
  have onwards := reopens
  simp only [Reopens, not_or, Option.isNone_iff_eq_none] at onwards
  obtain ⟨opened, notBefore, near⟩ := onwards
  obtain ⟨stream, open_⟩ := Option.ne_none_iff_exists'.mp opened
  by_cases ahead : handle.pos < offset
  · rw [if_pos ahead]
    have skipped := tracks.consume (offset - handle.pos) open_ (by
      intro broken
      have bound := received reopens broken
      omega)
    generalize handle.consume (offset - handle.pos) = result at skipped
    obtain ⟨next, outcome⟩ := result
    cases outcome with
    | error error => exact ⟨skipped.tracks, nofun⟩
    | ok gap =>
        obtain ⟨gapData, positioned, ended⟩ := skipped.data gap rfl
        have length : gap.length = offset - handle.pos := by
          rw [gapData, List.length_take, List.length_drop]
          omega
        have there : next.pos = offset := by
          dsimp only at positioned
          omega
        dsimp only
        rw [if_neg (by omega)]
        obtain ⟨later, stillOpen⟩ := skipped.open_
        have consumed := skipped.tracks.consume size.toNat stillOpen (by
            intro broken
            obtain ⟨before, reach⟩ := ended broken
            have bound := received reopens before
            dsimp only at reach ⊢
            omega)
        refine ⟨consumed.tracks, fun data read => ?_⟩
        rw [(consumed.data data read).1]
        dsimp only
        rw [there]
  · rw [if_neg ahead]
    have there : handle.pos = offset := by omega
    have consumed := tracks.consume size.toNat open_ (by
      intro broken
      have bound := received reopens broken
      omega)
    refine ⟨consumed.tracks, fun data read => ?_⟩
    rw [(consumed.data data read).1, there]

end Tracking

theorem opened_tracks (content : List UInt8) :
    (opened content.length : ReadHandle ε).Tracks content :=
  ⟨rfl, List.nil_prefix, nofun⟩

theorem Tracks.step {content : List UInt8} (handle : ReadHandle ε)
    (call : HandleCall ε) (next : ReadHandle ε)
    (tracks : handle.Tracks content) (fine : Undisturbed content handle call)
    (taken : handle.step call = some next) : next.Tracks content := by
  cases call with
  | read offset size download =>
      cases taken
      exact (tracks.read fine).1
  | close =>
      cases taken
      exact ⟨tracks.size, List.nil_prefix, nofun⟩

/-- In a run that nothing disturbs every read shows the content that the
handle was opened on. -/
theorem undisturbed_reads_refine {content : List UInt8}
    {handle : ReadHandle ε}
    (reachable : ReachableWithin step (Undisturbed content)
      (opened content.length) handle)
    {offset : Nat} {size : Int} {download : Except ε (ByteStream ε)}
    (fine : Undisturbed content handle (.read offset size download))
    {data : List UInt8}
    (answered : (handle.read offset size download).2 = .ok data) :
    data = (content.drop offset).take size.toNat :=
  ((reachable.invariant Tracks.step (opened_tracks content)).read fine).2 data
    answered

/-- Two reads of three bytes through one download in two chunks. -/
theorem undisturbed_reads_refine_short :
    ∃ handle : ReadHandle Unit,
      ReachableWithin step (Undisturbed [1, 2, 3]) (opened 3) handle ∧
        (handle.read 2 5 (.error ())).2 = .ok [3] := by
  have first : Undisturbed [1, 2, 3] (opened 3 : ReadHandle Unit)
      (.read 0 2 (.ok ⟨[[1], [2, 3]], none⟩)) := by
    intro _ _
    refine ⟨?_, fun absurd => (absurd (.inl rfl)).elim⟩
    intro _ stream answer
    cases answer
    refine ⟨⟨[], rfl⟩, fun _ => rfl, ?_⟩
    intro before after parts
    rcases before with - | ⟨one, - | ⟨two, - | ⟨three, rest⟩⟩⟩ <;>
      simp at parts
  have second : Undisturbed [1, 2, 3]
      (⟨3, some ⟨[], none⟩, 2, [3]⟩ : ReadHandle Unit)
      (.read 2 5 (.error ())) := by
    intro _ _
    refine ⟨fun _ stream => nofun, ?_⟩
    rintro _ ⟨_, early⟩
    exact absurd early (by decide)
  have reachable : ReachableWithin step (Undisturbed [1, 2, 3])
      (opened ([1, 2, 3] : List UInt8).length)
      (⟨3, some ⟨[], none⟩, 2, [3]⟩ : ReadHandle Unit) :=
    ⟨[.read 0 2 (.ok ⟨[[1], [2, 3]], none⟩)],
      ⟨first, fun _ _ => trivial⟩, rfl⟩
  obtain ⟨data, answered⟩ : ∃ data,
      (read (⟨3, some ⟨[], none⟩, 2, [3]⟩ : ReadHandle Unit) 2 5
        (.error ())).2 = .ok data := ⟨_, rfl⟩
  have shown := undisturbed_reads_refine reachable second answered
  refine ⟨_, reachable, ?_⟩
  rw [answered, shown]
  rfl

/-- A download that raises at once: the error surfaces in the first read, and
the second one reports the end of the file at offset `0`. -/
theorem failed_download_reads_as_end :
    ∃ handle : ReadHandle Unit, Reachable step (opened 3) handle ∧
      (handle.read 0 2 (.ok ⟨[[1, 2, 3]], none⟩)).2 = .ok [] ∧
        ([] : List UInt8) ≠ (([1, 2, 3] : List UInt8).drop 0).take 2 :=
  ⟨⟨3, some ⟨[], none⟩, 0, []⟩, ⟨[.read 0 2 (.ok ⟨[], some ()⟩)], rfl⟩, rfl,
    by decide⟩

end ReadHandle

end Tgdcfs
