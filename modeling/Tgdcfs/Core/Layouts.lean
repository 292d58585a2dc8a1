import Tgdcfs.Core.RangeMap

/-!
# Reading a version from its layouts

A version is stored in one or more layouts.  A read takes the first layout
that can serve it and goes on with the next one from the byte where the
previous one stopped.
-/

namespace Tgdcfs

/-- One way of cutting a version into messages: for every part its size and
the stores that have a message with it. -/
structure Layout where
  partSizes : List Nat
  candidates : List (List (String × Int))
  label : String
  deriving DecidableEq

namespace Layout

def size (layout : Layout) : Nat := layout.partSizes.sum

/-- The first message of every part that has one. -/
def messageIds (layout : Layout) : List Int :=
  layout.candidates.flatMap fun sources => (sources.take 1).map Prod.snd

/-- The downloads before the first part without a source, and whether there
is such a part: its download raises. -/
def servable (layout : Layout) : List PartRange → List PartRange × Bool
  | [] => ([], false)
  | range :: rest =>
      if (layout.candidates.getD range.part []).isEmpty then ([], true)
      else (range :: (layout.servable rest).1, (layout.servable rest).2)

/-- `_stream_layout` on stores that answer every download: the bytes, and
whether the stream raises after them. -/
def stream (layout : Layout) (content : List UInt8) (begin_ end_ : Nat) :
    Except RangeError (List UInt8 × Bool) :=
  (mapRange layout.messageIds layout.partSizes layout.size begin_ end_).map
    fun ranges =>
      ((layout.servable ranges).1.flatMap
        (PartRange.bytes layout.partSizes content),
        (layout.servable ranges).2)

/-- Every part has a source. -/
structure Complete (layout : Layout) : Prop where
  parts : layout.candidates.length = layout.partSizes.length
  sources : ∀ sources ∈ layout.candidates, sources ≠ []

end Layout

/-- A read in progress: what the layout in use still has to deliver, whether
it raises then, and the layouts not yet tried. -/
structure LayoutStream where
  position : Nat
  stop : Nat
  remaining : List UInt8
  raises : Bool
  untried : List Layout

namespace LayoutStream

/-- Go on with the first layout that maps the range; the error of the last
one is raised when there is none. -/
def openNext (content : List UInt8) (position stop : Nat) :
    List Layout → Option LayoutStream
  | [] => none
  | layout :: rest =>
      match layout.stream content position stop with
      | .error _ => openNext content position stop rest
      | .ok (remaining, raises) =>
          some
            { position := position
              stop := stop
              remaining := remaining
              raises := raises
              untried := rest }

/-- A chunk of the given length is handed out. -/
def take (stream : LayoutStream) (count : Nat) : LayoutStream :=
  { stream with
    position := stream.position + count
    remaining := stream.remaining.drop count }

/-- The layout in use failed. -/
def failOver (content : List UInt8) (stream : LayoutStream) :
    Option LayoutStream :=
  openNext content stream.position stream.stop stream.untried

/-- The stream ends normally after the last byte. -/
def ended (stream : LayoutStream) : Bool :=
  stream.remaining.isEmpty && !stream.raises

end LayoutStream

/-- `_stream_layouts` to its end on stores that answer every download: only a
part without a source makes it go on with the next layout. -/
def streamLayouts (content : List UInt8) :
    List Layout → Nat → Nat → Option (List UInt8)
  | [], _, _ => none
  | layout :: rest, begin_, end_ =>
      match layout.stream content begin_ end_ with
      | .error _ => streamLayouts content rest begin_ end_
      | .ok (bytes, false) => some bytes
      | .ok (bytes, true) =>
          (streamLayouts content rest (begin_ + bytes.length) end_).map
            (bytes ++ ·)

namespace Layout

variable {layout : Layout} {content : List UInt8} {begin_ end_ : Nat}

theorem servable_isPrefix (layout : Layout) (ranges : List PartRange) :
    ∃ rest, ranges = (layout.servable ranges).1 ++ rest ∧
      ((layout.servable ranges).2 = false → rest = []) ∧
      ((layout.servable ranges).2 = true → rest ≠ []) := by
  induction ranges with
  | nil =>
      refine ⟨[], rfl, fun _ => rfl, ?_⟩
      intro raises
      cases raises
  | cons range ranges induction =>
      unfold servable
      split
      · refine ⟨range :: ranges, rfl, ?_, fun _ => List.cons_ne_nil _ _⟩
        intro ends
        cases ends
      · obtain ⟨rest, split_, ends, raises⟩ := induction
        refine ⟨rest, ?_, ends, raises⟩
        rw [List.cons_append, ← split_]

theorem Complete.messageIds_length (complete : layout.Complete) :
    layout.messageIds.length = layout.partSizes.length := by
  have sources := complete.sources
  rw [← complete.parts, messageIds]
  generalize layout.candidates = candidates at sources
  induction candidates with
  | nil => rfl
  | cons first rest induction =>
      have nonempty := sources first List.mem_cons_self
      have one : ((first.take 1).map Prod.snd).length = 1 := by
        cases first with
        | nil => exact (nonempty rfl).elim
        | cons source others => rfl
      rw [List.flatMap_cons, List.length_append, one,
        induction fun other member =>
          sources other (List.mem_cons_of_mem _ member),
        List.length_cons, Nat.add_comm]

theorem Complete.servable_eq (complete : layout.Complete)
    {ranges : List PartRange}
    (inside : ∀ range ∈ ranges,
      range.end_ < layout.partSizes.getD range.part 0) :
    layout.servable ranges = (ranges, false) := by
  induction ranges with
  | nil => rfl
  | cons range ranges induction =>
      have rest := induction fun other member =>
        inside other (List.mem_cons_of_mem _ member)
      have here := inside range List.mem_cons_self
      have known : range.part < layout.candidates.length := by
        rw [complete.parts]
        by_contra outside
        rw [List.getD_eq_getElem?_getD,
          List.getElem?_eq_none (Nat.le_of_not_lt outside)] at here
        cases here
      have filled : (layout.candidates.getD range.part []).isEmpty =
          false := by
        rw [List.getD_eq_getElem?_getD, List.getElem?_eq_getElem known]
        simpa using complete.sources _ (List.getElem_mem known)
      rw [servable, filled, rest]
      rfl

theorem Complete.stream_eq (complete : layout.Complete)
    (sized : layout.size = content.length) (ordered : begin_ ≤ end_)
    (inside : end_ < content.length) :
    layout.stream content begin_ end_ =
      .ok (byteRange content begin_ end_, false) := by
  obtain ⟨ranges, mapped, bounded, bytes⟩ :=
    mapRange_spec complete.messageIds_length ordered
      (lt_of_lt_of_eq inside sized.symm)
  have all := complete.servable_eq fun range member =>
    (bounded range member).2
  rw [stream, size, mapped, Except.map, all]
  dsimp only
  rw [bytes content sized.symm]

theorem stream_ok (sized : layout.size = content.length)
    (ordered : begin_ ≤ end_) (inside : end_ < content.length)
    {bytes : List UInt8} {raises : Bool}
    (served : layout.stream content begin_ end_ = .ok (bytes, raises)) :
    ∃ rest, byteRange content begin_ end_ = bytes ++ rest ∧
      (raises = false → rest = []) ∧ (raises = true → rest ≠ []) := by
  obtain ⟨ranges, mapped, same⟩ := ok_of_map served
  cases same
  obtain ⟨bounded, all⟩ := mapRange_ok ordered
    (lt_of_lt_of_eq inside sized.symm) mapped
  obtain ⟨rest, split_, ends, raises⟩ := layout.servable_isPrefix ranges
  refine ⟨rest.flatMap (PartRange.bytes layout.partSizes content), ?_, ?_,
    ?_⟩
  · rw [← all content sized.symm, ← List.flatMap_append, ← split_]
  · intro normal
    rw [ends normal]
    rfl
  · intro failing
    cases rest with
    | nil => exact (raises failing rfl).elim
    | cons range rest =>
        have member : range ∈ ranges := by
          rw [split_]
          exact List.mem_append_right _ List.mem_cons_self
        obtain ⟨starts, stops⟩ := bounded range member
        have filled := PartRange.bytes_ne_nil sized.symm starts stops
        rw [List.flatMap_cons]
        intro nothing
        exact filled (List.append_eq_nil_iff.mp nothing).1

end Layout

/-- There is a layout to go on with. -/
def Servable (content : List UInt8) (layouts : List Layout) : Prop :=
  (∀ layout ∈ layouts, layout.size = content.length) ∧
    ∃ layout ∈ layouts, layout.Complete

variable {content : List UInt8}

theorem Servable.tail {layout : Layout} {rest : List Layout}
    (servable : Servable content (layout :: rest))
    (incomplete : ¬layout.Complete) : Servable content rest := by
  obtain ⟨sized, found, member, complete⟩ := servable
  refine ⟨fun other inside => sized other (List.mem_cons_of_mem _ inside),
    found, ?_, complete⟩
  rcases List.mem_cons.mp member with same | later
  · rw [same] at complete
    exact (incomplete complete).elim
  · exact later

theorem Servable.incomplete {layout : Layout} {rest : List Layout}
    {begin_ end_ : Nat} (servable : Servable content (layout :: rest))
    (ordered : begin_ ≤ end_) (inside : end_ < content.length)
    (other : layout.stream content begin_ end_ ≠
      .ok (byteRange content begin_ end_, false)) : Servable content rest := by
  apply servable.tail
  intro complete
  exact other (complete.stream_eq (servable.1 layout List.mem_cons_self)
    ordered inside)

/-- On stores that answer every download the layouts give the range. -/
theorem streamLayouts_eq {layouts : List Layout} {begin_ end_ : Nat}
    (servable : Servable content layouts) (ordered : begin_ ≤ end_)
    (inside : end_ < content.length) :
    streamLayouts content layouts begin_ end_ =
      some (byteRange content begin_ end_) := by
  induction layouts generalizing begin_ with
  | nil =>
      obtain ⟨_, _, member, _⟩ := servable
      cases member
  | cons layout rest induction =>
      have sized := servable.1 layout List.mem_cons_self
      rw [streamLayouts]
      cases served : layout.stream content begin_ end_ with
      | error failure =>
          have later := servable.incomplete ordered inside
            (by rw [served]; simp)
          exact induction later ordered
      | ok result =>
          obtain ⟨bytes, raises⟩ := result
          obtain ⟨owed, split_, ends, more⟩ :=
            Layout.stream_ok sized ordered inside served
          cases raises with
          | false =>
              dsimp only
              rw [split_, ends rfl, List.append_nil]
          | true =>
              have later := servable.incomplete ordered inside
                (by rw [served]; simp)
              have total := congrArg List.length split_
              have filled := List.length_pos_of_ne_nil (more rfl)
              rw [byteRange_length inside, List.length_append] at total
              dsimp only
              rw [induction later (by omega), Option.map_some, split_]
              have later_ := congrArg (List.drop bytes.length) split_
              rw [byteRange_drop, List.drop_left] at later_
              rw [later_]

namespace LayoutStream

/-- What a stream delivers is what is left of the range, and it raises only
while a complete layout is left to go on with. -/
structure Serves (content : List UInt8) (stream : LayoutStream) : Prop where
  inside : stream.stop < content.length
  sized : ∀ layout ∈ stream.untried, layout.size = content.length
  owed : ∃ rest, byteRange content stream.position stream.stop =
      stream.remaining ++ rest ∧
    (stream.raises = false → rest = []) ∧
    (stream.raises = true → rest ≠ [] ∧
      ∃ layout ∈ stream.untried, layout.Complete)

variable {content : List UInt8} {stream : LayoutStream}

theorem openNext_serves {layouts : List Layout} {position stop : Nat}
    (servable : Servable content layouts) (ordered : position ≤ stop)
    (inside : stop < content.length) :
    ∃ stream, openNext content position stop layouts = some stream ∧
      stream.Serves content ∧ stream.position = position ∧
      stream.stop = stop := by
  induction layouts with
  | nil =>
      obtain ⟨_, _, member, _⟩ := servable
      cases member
  | cons layout rest induction =>
      have sized := servable.1 layout List.mem_cons_self
      rw [openNext]
      cases served : layout.stream content position stop with
      | error failure =>
          exact induction (servable.incomplete ordered inside
            (by rw [served]; simp))
      | ok result =>
          obtain ⟨bytes, raises⟩ := result
          obtain ⟨owed, split_, ends, more⟩ :=
            Layout.stream_ok sized ordered inside served
          refine ⟨_, rfl, ⟨inside, fun other member =>
            servable.1 other (List.mem_cons_of_mem _ member), owed, split_,
            ends, ?_⟩, rfl, rfl⟩
          intro raising
          have raised : raises = true := raising
          have later := servable.incomplete ordered inside
            (by rw [served, raised]; simp)
          exact ⟨more raised, later.2⟩

variable (serves : stream.Serves content)
include serves

theorem Serves.chunk {count : Nat}
    (available : count ≤ stream.remaining.length) :
    stream.remaining.take count =
      (content.drop stream.position).take count := by
  obtain ⟨rest, split_, _⟩ := serves.owed
  have total := congrArg List.length split_
  rw [byteRange_length serves.inside, List.length_append] at total
  have start := congrArg (List.take count) split_
  rw [byteRange, List.take_take, min_eq_left (by omega),
    List.take_append_of_le_length available] at start
  exact start.symm

theorem Serves.take {count : Nat} (available : count ≤ stream.remaining.length)
    : (stream.take count).Serves content := by
  obtain ⟨rest, split_, ends, more⟩ := serves.owed
  refine ⟨serves.inside, serves.sized, rest, ?_, ends, more⟩
  have later := congrArg (List.drop count) split_
  rw [byteRange_drop, List.drop_append_of_le_length available] at later
  exact later

theorem Serves.bounded :
    stream.remaining.length ≤ stream.stop + 1 - stream.position := by
  obtain ⟨rest, split_, _⟩ := serves.owed
  have total := congrArg List.length split_
  rw [byteRange_length serves.inside, List.length_append] at total
  omega

theorem Serves.finished (ended : stream.ended = true) :
    stream.stop < stream.position := by
  obtain ⟨rest, split_, ends, _⟩ := serves.owed
  simp only [LayoutStream.ended, Bool.and_eq_true, List.isEmpty_iff,
    Bool.not_eq_true'] at ended
  have total := congrArg List.length split_
  rw [byteRange_length serves.inside, List.length_append, ended.1,
    ends ended.2] at total
  simp only [List.length_nil] at total
  omega

/-- A stream without bytes that does not end has to fail over. -/
theorem Serves.stuck (empty : stream.remaining = [])
    (open_ : stream.ended = false) :
    stream.position ≤ stream.stop ∧
      ∃ layout ∈ stream.untried, layout.Complete := by
  obtain ⟨rest, split_, _, more⟩ := serves.owed
  have raising : stream.raises = true := by
    simpa [LayoutStream.ended, empty] using open_
  obtain ⟨owing, left⟩ := more raising
  have total := congrArg List.length split_
  have filled := List.length_pos_of_ne_nil owing
  rw [byteRange_length serves.inside, List.length_append] at total
  exact ⟨by omega, left⟩

theorem Serves.failOver (owing : stream.position ≤ stream.stop)
    (left : ∃ layout ∈ stream.untried, layout.Complete) :
    ∃ next, stream.failOver content = some next ∧ next.Serves content ∧
      next.position = stream.position ∧ next.stop = stream.stop :=
  openNext_serves ⟨serves.sized, left⟩ owing serves.inside

end LayoutStream

end Tgdcfs
