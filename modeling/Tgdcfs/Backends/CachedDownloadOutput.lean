import Tgdcfs.Backends.CachedDownload
import Tgdcfs.Core.RangeMap

/-!
# What cached downloads deliver

Whatever the cache holds when a block is asked for, a download continues its
output with the part of the block that lies in the range.  So its output is
the range up to the block it stands at, and the cache holds complete blocks.
-/

namespace Tgdcfs

open Lib

variable {ε : Type*}

theorem blockLength_eq (index blockSize totalSize : Nat) :
    blockLength index blockSize totalSize =
      min (index * blockSize + blockSize) totalSize - index * blockSize := by
  simp only [blockLength, blockBounds]
  omega

theorem block_length (content : Bytes) (blockSize index : Nat) :
    (block content blockSize index).length =
      blockLength index blockSize content.length := by
  rw [blockLength_eq, block, window_length, Nat.succ_mul]

theorem window_take_blockLength {content : Bytes} {blockSize index last : Nat}
    (within : index ≤ last) :
    (window content (index * blockSize) ((last + 1) * blockSize)).take
        (blockLength index blockSize content.length) =
      block content blockSize index := by
  have room : (index + 1) * blockSize ≤ (last + 1) * blockSize :=
    Nat.mul_le_mul_right _ (by omega)
  have next : (index + 1) * blockSize = index * blockSize + blockSize :=
    Nat.succ_mul _ _
  rw [window_take, blockLength_eq, block, ← window_min_length,
    ← window_min_length content _ ((index + 1) * blockSize)]
  congr 1
  omega

theorem window_drop_blockLength (content : Bytes)
    (blockSize index stop : Nat) :
    (window content (index * blockSize) stop).drop
        (blockLength index blockSize content.length) =
      window content ((index + 1) * blockSize) stop := by
  have next : (index + 1) * blockSize = index * blockSize + blockSize :=
    Nat.succ_mul _ _
  rw [window_drop, blockLength_eq]
  by_cases whole : index * blockSize + blockSize ≤ content.length
  · congr 1
    omega
  · have short : ∀ first, content.length ≤ first →
        window content first stop = [] := by
      intro first behind
      apply List.eq_nil_of_length_eq_zero
      rw [window_length]
      omega
    rw [short _ (by omega), short _ (by omega)]

theorem sliceBlock_eq (block : Bytes) (index blockSize begin_ : Nat)
    (end_ : Int) :
    sliceBlock block index blockSize begin_ end_ =
      (block.take ((end_ + 1).toNat - index * blockSize)).drop
        (begin_ - index * blockSize) := by
  unfold sliceBlock
  dsimp only
  split
  · have stop : (min (block.length : Int)
          (end_ - (index * blockSize : Nat) + 1)).toNat =
        min ((end_ + 1).toNat - index * blockSize) block.length := by
      omega
    rw [stop, ← List.take_take, List.take_length]
  · rename_i outside
    symm
    apply List.drop_eq_nil_of_le
    rw [List.length_take]
    omega

section Stop

variable {begin_ index blockSize size : Nat} {end_ : Int}

theorem lt_stop_inside (positive : 0 < blockSize)
    (below : index <
      (blockRange begin_ (min end_ ((size : Int) - 1)) blockSize).2) :
    index * blockSize < size := by
  have divisor : (0 : Int) < blockSize := by omega
  have reach : (index : Int) ≤ min end_ ((size : Int) - 1) / blockSize := by
    simp only [blockRange] at below
    omega
  have before := (Int.le_ediv_iff_mul_le divisor).mp reach
  have cast : ((index * blockSize : Nat) : Int) = index * blockSize := by
    simp
  omega

theorem stop_le_reaches (positive : 0 < blockSize)
    (behind : (blockRange begin_ (min end_ ((size : Int) - 1)) blockSize).2 ≤
      index) :
    min (end_ + 1).toNat size ≤ index * blockSize := by
  have divisor : (0 : Int) < blockSize := by omega
  have reach : min end_ ((size : Int) - 1) / blockSize < index := by
    simp only [blockRange] at behind
    omega
  have before := (Int.ediv_lt_iff_lt_mul divisor).mp reach
  have cast : ((index * blockSize : Nat) : Int) = index * blockSize := by
    simp
  omega

theorem runEndFrom_spec (held : Nat → Bool) (left runEnd : Nat) :
    runEnd ≤ runEndFrom held left runEnd ∧
      runEndFrom held left runEnd ≤ runEnd + left := by
  induction left generalizing runEnd with
  | zero => simp [runEndFrom]
  | succ left induction =>
      unfold runEndFrom
      split
      · omega
      · have later := induction (runEnd + 1)
        omega

end Stop

/-- What the answer of the uncached download may raise. -/
def Answer.Raises (answer : Except ε (ByteStream ε)) (error : ε) : Prop :=
  match answer with
  | .ok stream => stream.error = some error
  | .error failure => failure = error

namespace BlockFetch

/-- The uncached download delivers the range it is asked for, or raises with a
beginning of it delivered. -/
def Answers (content : Bytes) (fetch : BlockFetch ε)
    (answer : Except ε (ByteStream ε)) : Prop :=
  match answer with
  | .ok stream =>
      stream.chunks.flatten <+:
          byteRange content fetch.request.1 fetch.request.2.toNat ∧
        (stream.error = none → stream.chunks.flatten =
          byteRange content fetch.request.1 fetch.request.2.toNat)
  | .error _ => True

/-- The bytes that are still to be cut into blocks. -/
structure Arriving (content : Bytes) (errors : ε → Prop)
    (fetch : BlockFetch ε) (chunks : List Bytes) (error : Option ε) :
    Prop where
  bytes : fetch.buffer ++ chunks.flatten <+:
    window content (fetch.index * fetch.blockSize)
      ((fetch.last + 1) * fetch.blockSize)
  whole : error = none → fetch.buffer ++ chunks.flatten =
    window content (fetch.index * fetch.blockSize)
      ((fetch.last + 1) * fetch.blockSize)
  fails : ∀ failure, error = some failure → errors failure

structure Ok (content : Bytes) (errors : ε → Prop) (fetch : BlockFetch ε) :
    Prop where
  size_eq : fetch.size = content.length
  positive : 0 < fetch.blockSize
  inside : fetch.last * fetch.blockSize < content.length
  reached : fetch.index ≤ fetch.last + 1
  phase :
    match fetch.phase with
    | .opening => fetch.index ≤ fetch.last ∧ fetch.buffer = []
    | .awaiting chunks error =>
        (fetch.index ≤ fetch.last → fetch.buffer.length <
          blockLength fetch.index fetch.blockSize fetch.size) ∧
        fetch.Arriving content errors chunks error
    | .cutting chunks error => fetch.Arriving content errors chunks error
    | .ended => fetch.index = fetch.last + 1
    | .raised error => errors error

variable {content : Bytes} {errors : ε → Prop} {fetch : BlockFetch ε}

theorem start_ok (channel messageId : Int) {first last blockSize : Nat}
    (positive : 0 < blockSize) (ordered : first ≤ last)
    (inside : last * blockSize < content.length) :
    (start channel messageId first last content.length blockSize :
      BlockFetch ε).Ok content errors :=
  ⟨rfl, positive, inside, Nat.le_succ_of_le ordered, ordered, rfl⟩

theorem request_window (ok : fetch.Ok content errors) :
    byteRange content fetch.request.1 fetch.request.2.toNat =
      window content (fetch.index * fetch.blockSize)
        ((fetch.last + 1) * fetch.blockSize) := by
  have inside := ok.inside
  have positive := ok.positive
  have next : (fetch.last + 1) * fetch.blockSize =
      fetch.last * fetch.blockSize + fetch.blockSize := Nat.succ_mul _ _
  have stop : fetch.request.2.toNat + 1 =
      min ((fetch.last + 1) * fetch.blockSize) content.length := by
    simp only [request, blockBounds]
    rw [ok.size_eq, next]
    omega
  rw [byteRange, stop, ← window_eq_take_drop]
  exact window_min_length content _ _

theorem answered_ok (ok : fetch.Ok content errors)
    (waiting : fetch.phase = .opening) {answer : Except ε (ByteStream ε)}
    (answers : fetch.Answers content answer)
    (raises : ∀ error, Answer.Raises answer error → errors error) :
    (fetch.answered answer).Ok content errors := by
  have phase := ok.phase
  rw [waiting] at phase
  obtain ⟨ordered, empty⟩ := phase
  cases answer with
  | error failure =>
      exact ⟨ok.size_eq, ok.positive, ok.inside, ok.reached,
        raises failure rfl⟩
  | ok stream =>
      refine ⟨ok.size_eq, ok.positive, ok.inside, ok.reached, ?_, ?_⟩
      · intro _
        change fetch.buffer.length < _
        have positive := ok.positive
        have inside := ok.inside
        have before : fetch.index * fetch.blockSize ≤
            fetch.last * fetch.blockSize := Nat.mul_le_mul_right _ ordered
        change fetch.buffer.length <
          blockLength fetch.index fetch.blockSize fetch.size
        rw [empty, blockLength_eq, ok.size_eq, List.length_nil]
        omega
      · have window_ := request_window ok
        constructor
        · change fetch.buffer ++ stream.chunks.flatten <+: _
          rw [empty, List.nil_append]
          exact window_ ▸ answers.1
        · intro vacant
          change fetch.buffer ++ stream.chunks.flatten = _
          rw [empty, List.nil_append]
          exact window_ ▸ answers.2 vacant
        · exact raises

/-- What one step of a fetch keeps, and the block it may yield. -/
structure Next (content : Bytes) (errors : ε → Prop) (before : BlockFetch ε)
    (after : BlockFetch ε × Option (Nat × Bytes × Bool)) : Prop where
  ok : after.1.Ok content errors
  last_eq : after.1.last = before.last
  blockSize_eq : after.1.blockSize = before.blockSize
  yielded :
    match after.2 with
    | none => after.1.index = before.index
    | some (index, bytes, complete) =>
        complete = true ∧ index = before.index ∧ index ≤ before.last ∧
          bytes = block content before.blockSize index ∧
            after.1.index = index + 1

/-- Once the buffer holds a block, it is the one at the index. -/
theorem Arriving.cut {chunks : List Bytes} {error : Option ε}
    (arriving : fetch.Arriving content errors chunks error)
    (within : fetch.index ≤ fetch.last)
    (enough : blockLength fetch.index fetch.blockSize content.length ≤
      fetch.buffer.length) :
    fetch.buffer.take
        (blockLength fetch.index fetch.blockSize content.length) =
      block content fetch.blockSize fetch.index ∧
    Arriving content errors
      { fetch with
        index := fetch.index + 1
        buffer := fetch.buffer.drop
          (blockLength fetch.index fetch.blockSize content.length) }
      chunks error := by
  have later : fetch.buffer.drop
        (blockLength fetch.index fetch.blockSize content.length) ++
          chunks.flatten =
      (fetch.buffer ++ chunks.flatten).drop
        (blockLength fetch.index fetch.blockSize content.length) :=
    (List.drop_append_of_le_length enough).symm
  constructor
  · have front := List.IsPrefix.take arriving.bytes
      (blockLength fetch.index fetch.blockSize content.length)
    rw [window_take_blockLength within,
      List.take_append_of_le_length enough] at front
    apply front.eq_of_length
    rw [block_length, List.length_take]
    omega
  · constructor
    · change _ ++ _ <+: _
      rw [later, ← window_drop_blockLength]
      exact arriving.bytes.drop _
    · intro empty
      rw [later, ← window_drop_blockLength, arriving.whole empty]
    · exact arriving.fails

theorem next_ok (ok : fetch.Ok content errors) :
    fetch.Next content errors fetch.next := by
  have phase := ok.phase
  unfold next
  split
  · rename_i chunk chunks error here
    rw [here] at phase
    obtain ⟨_, arriving⟩ := phase
    refine ⟨⟨ok.size_eq, ok.positive, ok.inside, ok.reached, ?_⟩, rfl, rfl,
      rfl⟩
    refine ⟨?_, ?_, arriving.fails⟩
    · simpa using arriving.bytes
    · simpa using arriving.whole
  · rename_i error here
    rw [here] at phase
    exact ⟨⟨ok.size_eq, ok.positive, ok.inside, ok.reached,
      phase.2.fails error rfl⟩, rfl, rfl, rfl⟩
  · rename_i here
    rw [here] at phase
    obtain ⟨short, arriving⟩ := phase
    -- A stream that ended has delivered every block.
    have all : fetch.index = fetch.last + 1 := by
      by_contra missing
      have within : fetch.index ≤ fetch.last := by
        have reached := ok.reached
        omega
      have whole := congrArg (fun bytes => (bytes.take
        (blockLength fetch.index fetch.blockSize content.length)).length)
          (arriving.whole rfl)
      have fewer := short within
      rw [ok.size_eq] at fewer
      rw [window_take_blockLength within, block_length, List.flatten_nil,
        List.append_nil, List.length_take] at whole
      omega
    have stopped : ¬(fetch.index ≤ fetch.last ∧ fetch.buffer ≠ []) := by
      omega
    rw [if_neg stopped]
    exact ⟨⟨ok.size_eq, ok.positive, ok.inside, ok.reached, all⟩, rfl, rfl,
      rfl⟩
  · rename_i chunks error here
    rw [here] at phase
    dsimp only
    split
    · rename_i enough
      have expected :
          blockLength fetch.index fetch.blockSize fetch.size =
            blockLength fetch.index fetch.blockSize content.length := by
        rw [ok.size_eq]
      rw [expected] at enough ⊢
      obtain ⟨first, rest⟩ := Arriving.cut phase enough.1 enough.2
      refine ⟨⟨ok.size_eq, ok.positive, ok.inside,
        Nat.succ_le_succ enough.1, ?_⟩, rfl, rfl, rfl, rfl, enough.1,
          first, rfl⟩
      dsimp only
      rw [here]
      exact ⟨rest.bytes, rest.whole, rest.fails⟩
    · rename_i short
      refine ⟨⟨ok.size_eq, ok.positive, ok.inside, ok.reached, ?_, ?_⟩, rfl,
        rfl, rfl⟩
      · intro within
        dsimp only at within ⊢
        omega
      · exact ⟨phase.bytes, phase.whole, phase.fails⟩
  · exact ⟨ok, rfl, rfl, rfl⟩
  · exact ⟨ok, rfl, rfl, rfl⟩
  · exact ⟨ok, rfl, rfl, rfl⟩

/-- Steps left until the fetch is over. -/
def work (fetch : BlockFetch ε) : Nat :=
  match fetch.phase with
  | .awaiting chunks _ =>
      2 * chunks.length + 1 + (fetch.last + 1 - fetch.index)
  | .cutting chunks _ =>
      2 * chunks.length + 2 + (fetch.last + 1 - fetch.index)
  | .opening | .ended | .raised _ => 0

/-- Whether the answer of the uncached download is still out. -/
def stage (fetch : BlockFetch ε) : Nat :=
  match fetch.phase with
  | .opening => 2
  | .awaiting .. | .cutting .. | .ended | .raised _ => 1

theorem next_stage (fetch : BlockFetch ε) :
    fetch.next.1.stage ≤ fetch.stage := by
  unfold next
  split
  · rename_i here
    simp [stage, here]
  · rename_i here
    simp [stage, here]
  · rename_i here
    simp [stage, here]
  · rename_i here
    dsimp only
    split
    · simp [stage, here]
    · simp [stage, here]
  all_goals exact Nat.le_refl _

theorem next_work (busy : 0 < fetch.work) :
    fetch.next.1.work < fetch.work := by
  unfold next
  split
  · rename_i chunk chunks error here
    simp only [work, here, List.length_cons]
    omega
  · rename_i error here
    simp only [work, here]
    omega
  · rename_i here
    simp only [work, here]
    omega
  · rename_i chunks error here
    dsimp only
    split
    · simp only [work, here]
      omega
    · simp only [work, here]
      omega
  · rename_i here
    simp [work, here] at busy
  · rename_i here
    simp [work, here] at busy
  · rename_i here
    simp [work, here] at busy

end BlockFetch

/-- A stored block is the complete block of its index. -/
def CompleteBlock (setting : DownloadSetting) (key : BlockKey)
    (bytes : Bytes) : Prop :=
  key.2.2 * setting.blockSize < (setting.content key.1 key.2.1).length ∧
    bytes = block (setting.content key.1 key.2.1) setting.blockSize key.2.2

namespace CachedDownload

/-- The requested bytes in front of a block. -/
def served (download : CachedDownload ε) (content : Bytes) (index : Nat) :
    Bytes :=
  window content download.begin_
    (min (download.end_ + 1).toNat (index * download.blockSize))

/-- The requested bytes. -/
def wanted (download : CachedDownload ε) (content : Bytes) : Bytes :=
  window content download.begin_
    (min download.end_ ((content.length : Int) - 1) + 1).toNat

structure Ok (setting : DownloadSetting) (errors : ε → Prop)
    (download : CachedDownload ε) : Prop where
  size_eq : download.size =
    (setting.content download.channel download.messageId).length
  blockSize_eq : download.blockSize = setting.blockSize
  phase :
    let content := setting.content download.channel download.messageId
    match download.phase with
    | .atIndex index =>
        download.output.flatten = download.served content index
    | .inRun runEnd fetch =>
        fetch.Ok content errors ∧ fetch.blockSize = setting.blockSize ∧
          fetch.last = runEnd ∧ runEnd < download.blocks.2 ∧
            download.output.flatten = download.served content fetch.index
    | .finished => download.output.flatten = download.wanted content
    | .closed => download.output.flatten <+: download.wanted content
    | .raised error =>
        download.output.flatten <+: download.wanted content ∧ errors error

variable {setting : DownloadSetting} {errors : ε → Prop}
  {download : CachedDownload ε} {cache : ChunkCache}

theorem wanted_eq (download : CachedDownload ε) (content : Bytes) :
    download.wanted content =
      window content download.begin_ (download.end_ + 1).toNat := by
  have stop : (min download.end_ ((content.length : Int) - 1) + 1).toNat =
      min (download.end_ + 1).toNat content.length := by omega
  rw [wanted, stop, window_min_length]

theorem served_prefix (download : CachedDownload ε) (content : Bytes)
    (index : Nat) :
    download.served content index <+: download.wanted content := by
  rw [wanted_eq]
  exact window_prefix content (Nat.min_le_left _ _)

theorem yield_served {content : Bytes} {index : Nat}
    (before : download.output.flatten = download.served content index)
    (phase : DownloadPhase ε) :
    (download.yield (block content download.blockSize index) index
        phase).output.flatten =
      download.served content (index + 1) := by
  simp only [yield, List.flatten_append, List.flatten_cons, List.flatten_nil,
    List.append_nil]
  rw [before, sliceBlock_eq]
  exact window_append_block content download.blockSize index
    download.begin_ _

theorem start_ok (setting : DownloadSetting) (channel messageId : Int)
    (begin_ : Nat) (end_ : Int) :
    (start channel messageId begin_ end_
      (setting.content channel messageId).length setting.blockSize :
        CachedDownload ε).Ok setting errors := by
  refine ⟨rfl, rfl, ?_⟩
  change [] = window _ begin_ (min _ (begin_ / _ * setting.blockSize))
  have aligned := Nat.div_mul_le_self begin_ setting.blockSize
  exact (window_eq_nil (by omega)).symm

theorem served_all (positive : 0 < setting.blockSize)
    (ok : download.Ok setting errors) {index : Nat}
    (behind : download.blocks.2 ≤ index) :
    download.served
        (setting.content download.channel download.messageId) index =
      download.wanted
        (setting.content download.channel download.messageId) := by
  have reached := stop_le_reaches (ok.blockSize_eq ▸ positive) behind
  rw [ok.size_eq] at reached
  rw [wanted_eq, served, ← window_min_length,
    ← window_min_length _ _ (download.end_ + 1).toNat]
  congr 1
  omega

theorem takeBlock_ok (ok : download.Ok setting errors)
    (sound : cache.Sound (CompleteBlock setting)) {runEnd : Nat}
    {fetch : BlockFetch ε} (here : download.phase = .inRun runEnd fetch) :
    (download.takeBlock runEnd fetch.next cache).1.Sound
        (CompleteBlock setting) ∧
      (download.takeBlock runEnd fetch.next cache).2.Ok setting errors := by
  have phase := ok.phase
  rw [here] at phase
  obtain ⟨fetchOk, sizes, last, below, output⟩ := phase
  have stepped := BlockFetch.next_ok fetchOk
  generalize fetch.next = fetched at stepped
  obtain ⟨after, yielded⟩ := fetched
  obtain ⟨afterOk, lastEq, sizeEq, event⟩ := stepped
  dsimp only at afterOk lastEq sizeEq event
  have sizes' := sizeEq.trans sizes
  have last' := lastEq.trans last
  cases yielded with
  | none =>
      refine ⟨sound, ok.size_eq, ok.blockSize_eq, afterOk, sizes', last',
        below, ?_⟩
      rw [event]
      exact output
  | some yielded =>
      obtain ⟨index, bytes, complete⟩ := yielded
      obtain ⟨rfl, rfl, within, rfl, advanced⟩ := event
      have inside : fetch.index * setting.blockSize <
          (setting.content download.channel download.messageId).length := by
        have before : fetch.index * fetch.blockSize ≤
            fetch.last * fetch.blockSize := Nat.mul_le_mul_right _ within
        rw [← sizes]
        exact before.trans_lt fetchOk.inside
      refine ⟨ChunkCache.put_sound sound ⟨inside, congrArg₂ _ sizes rfl⟩,
        ok.size_eq, ok.blockSize_eq, afterOk, sizes', last', below, ?_⟩
      rw [sizes, ← ok.blockSize_eq, advanced]
      exact yield_served output _

theorem resume_ok (positive : 0 < setting.blockSize)
    (ok : download.Ok setting errors)
    (sound : cache.Sound (CompleteBlock setting))
    {next : ChunkCache × CachedDownload ε}
    (resumed : download.resume cache = some next) :
    next.1.Sound (CompleteBlock setting) ∧ next.2.Ok setting errors := by
  have phase := ok.phase
  unfold resume at resumed
  split at resumed
  · rename_i index here
    rw [here] at phase
    split at resumed
    · rename_i behind
      cases resumed
      exact ⟨sound, ok.size_eq, ok.blockSize_eq,
        phase.trans (served_all positive ok behind)⟩
    · rename_i inside
      have kept := ChunkCache.get_sound sound (download.key index)
      split at resumed
      · rename_i after cached found
        rw [found] at kept
        cases resumed
        have complete := ChunkCache.get_good sound
          (congrArg Prod.snd found)
        refine ⟨kept, ok.size_eq, ok.blockSize_eq, ?_⟩
        have good := complete.2
        dsimp only [key] at good
        rw [good, ← ok.blockSize_eq]
        exact yield_served phase _
      · rename_i after missing
        rw [missing] at kept
        cases resumed
        have walk := runEndFrom_spec
          (fun index => after.contains (download.key index))
          (download.blocks.2 - (index + 1)) index
        have below : runEndFrom
            (fun index => after.contains (download.key index))
            (download.blocks.2 - (index + 1)) index <
              download.blocks.2 := by omega
        refine ⟨kept, ok.size_eq, ok.blockSize_eq, ?_, ok.blockSize_eq, rfl,
          below, phase⟩
        rw [ok.size_eq]
        apply BlockFetch.start_ok
        · exact ok.blockSize_eq ▸ positive
        · exact walk.1
        · rw [← ok.size_eq]
          exact lt_stop_inside (ok.blockSize_eq ▸ positive) below
  · rename_i runEnd fetch here
    rw [here] at phase
    obtain ⟨fetchOk, sizes, last, below, output⟩ := phase
    split at resumed
    · cases resumed
    · rename_i isOver
      cases resumed
      have phase := fetchOk.phase
      rw [isOver] at phase
      refine ⟨sound, ok.size_eq, ok.blockSize_eq, ?_⟩
      rw [← last, ← phase]
      exact output
    · rename_i error isOver
      cases resumed
      have phase := fetchOk.phase
      rw [isOver] at phase
      exact ⟨sound, ok.size_eq, ok.blockSize_eq,
        output ▸ served_prefix _ _ _, phase⟩
    · cases resumed
      exact takeBlock_ok ok sound here
    · cases resumed
      exact takeBlock_ok ok sound here
  · cases resumed
  · cases resumed
  · cases resumed

variable {next : CachedDownload ε}

theorem answered_ok (ok : download.Ok setting errors)
    {answer : Except ε (ByteStream ε)}
    (answers : ∀ runEnd fetch, download.phase = .inRun runEnd fetch →
      fetch.Answers
        (setting.content download.channel download.messageId) answer)
    (raises : ∀ error, Answer.Raises answer error → errors error)
    (answered : download.answered answer = some next) :
    next.Ok setting errors := by
  have phase := ok.phase
  unfold CachedDownload.answered at answered
  split at answered
  · rename_i runEnd fetch here
    rw [here] at phase
    obtain ⟨fetchOk, sizes, last, below, output⟩ := phase
    split at answered
    · rename_i waiting
      cases answered
      have kept := BlockFetch.answered_ok fetchOk waiting
        (answers runEnd fetch here) raises
      refine ⟨ok.size_eq, ok.blockSize_eq, kept, ?_⟩
      cases answer with
      | error failure => exact ⟨sizes, last, below, output⟩
      | ok stream => exact ⟨sizes, last, below, output⟩
    · cases answered
  · cases answered

theorem close_ok (ok : download.Ok setting errors)
    (closed : download.close = some next) : next.Ok setting errors := by
  have phase := ok.phase
  unfold close at closed
  split at closed
  · rename_i index here
    rw [here] at phase
    cases closed
    exact ⟨ok.size_eq, ok.blockSize_eq, phase ▸ served_prefix _ _ _⟩
  · rename_i runEnd fetch here
    rw [here] at phase
    cases closed
    exact ⟨ok.size_eq, ok.blockSize_eq,
      phase.2.2.2.2 ▸ served_prefix _ _ _⟩
  · cases closed
  · cases closed
  · cases closed

/-- Blocks to go, the stage at the current one, and the steps of its fetch. -/
def remaining (download : CachedDownload ε) : ℕ ×ₗ ℕ ×ₗ ℕ :=
  match download.phase with
  | .atIndex index => toLex (download.blocks.2 - index, toLex (3, 0))
  | .inRun runEnd fetch =>
      toLex (download.blocks.2 - runEnd, toLex (fetch.stage, fetch.work))
  | .finished | .closed | .raised _ => toLex (0, toLex (0, 0))

/-- The download is neither over nor given up. -/
def Running (download : CachedDownload ε) : Prop :=
  match download.phase with
  | .atIndex _ | .inRun .. => True
  | .finished | .closed | .raised _ => False

/-- The download waits for the uncached one. -/
def Waiting (download : CachedDownload ε) : Prop :=
  ∃ runEnd fetch, download.phase = .inRun runEnd fetch ∧
    fetch.phase = .opening

theorem resume_enabled (running : download.Running)
    (cache : ChunkCache) (ready : ¬download.Waiting) :
    (download.resume cache).isSome := by
  unfold resume
  split
  · split
    · rfl
    · split <;> rfl
  · rename_i runEnd fetch here
    split
    · rename_i waiting
      exact (ready ⟨runEnd, fetch, here, waiting⟩).elim
    all_goals rfl
  all_goals
    rename_i here
    simp [Running, here] at running

theorem lex_lt_iff (a b c a' b' c' : ℕ) :
    toLex (a, toLex (b, c)) < toLex (a', toLex (b', c')) ↔
      a < a' ∨ a = a' ∧ (b < b' ∨ b = b' ∧ c < c') := by
  rw [Prod.Lex.toLex_lt_toLex, Prod.Lex.toLex_lt_toLex]

theorem takeBlock_lowers {runEnd : Nat} {fetch : BlockFetch ε}
    (here : download.phase = .inRun runEnd fetch) (busy : 0 < fetch.work) :
    (download.takeBlock runEnd fetch.next cache).2.remaining <
      download.remaining := by
  have stage := fetch.next_stage
  have work := BlockFetch.next_work busy
  unfold takeBlock
  split
  all_goals
    rename_i fetched
    rw [fetched] at stage work
    dsimp only at stage work
    simp only [remaining, yield, here, lex_lt_iff, blocks, true_and]
    omega

theorem resume_lowers (ok : download.Ok setting errors)
    {next : ChunkCache × CachedDownload ε}
    (resumed : download.resume cache = some next) :
    next.2.remaining < download.remaining := by
  have phase := ok.phase
  unfold resume at resumed
  split at resumed
  · rename_i index here
    rw [remaining, remaining, here]
    split at resumed
    · cases resumed
      simp [lex_lt_iff]
      omega
    · rename_i inside
      split at resumed
      · rename_i after cached found
        cases resumed
        simp only [yield, lex_lt_iff, blocks]
        simp only [blocks] at inside
        omega
      · rename_i after missing
        cases resumed
        have walk := runEndFrom_spec
          (fun index => after.contains (download.key index))
          (download.blocks.2 - (index + 1)) index
        simp only [BlockFetch.start, BlockFetch.stage, lex_lt_iff, blocks]
        simp only [blocks] at inside walk
        omega
  · rename_i runEnd fetch here
    rw [here] at phase
    obtain ⟨fetchOk, sizes, last, below, output⟩ := phase
    split at resumed
    · cases resumed
    · rename_i isOver
      cases resumed
      simp only [remaining, here, lex_lt_iff, blocks]
      simp only [blocks] at below
      omega
    · rename_i error isOver
      cases resumed
      simp only [remaining, here, lex_lt_iff, blocks]
      simp only [blocks] at below
      omega
    · rename_i busy
      cases resumed
      exact takeBlock_lowers here (by
        simp only [BlockFetch.work, busy]
        omega)
    · rename_i busy
      cases resumed
      exact takeBlock_lowers here (by
        simp only [BlockFetch.work, busy]
        omega)
  · cases resumed
  · cases resumed
  · cases resumed

theorem answered_lowers {answer : Except ε (ByteStream ε)}
    (answered : download.answered answer = some next) :
    next.remaining < download.remaining := by
  unfold CachedDownload.answered at answered
  split at answered
  · rename_i runEnd fetch here
    split at answered
    · rename_i waiting
      cases answered
      have later : (fetch.answered answer).stage = 1 := by
        cases answer <;> rfl
      have before : fetch.stage = 2 := by simp [BlockFetch.stage, waiting]
      simp only [remaining, here, lex_lt_iff, blocks, true_and]
      omega
    · cases answered
  · cases answered

theorem close_lowers (ok : download.Ok setting errors)
    (closed : download.close = some next) :
    next.remaining < download.remaining := by
  unfold close at closed
  split at closed
  · rename_i index here
    cases closed
    simp only [remaining, here, lex_lt_iff]
    omega
  · rename_i runEnd fetch here
    have phase := ok.phase
    rw [here] at phase
    obtain ⟨_, _, _, below, _⟩ := phase
    cases closed
    simp only [remaining, here, lex_lt_iff, blocks]
    simp only [blocks] at below
    omega
  · cases closed
  · cases closed
  · cases closed

end CachedDownload

end Tgdcfs
