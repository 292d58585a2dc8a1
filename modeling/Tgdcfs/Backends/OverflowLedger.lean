import Tgdcfs.Backends.GenuineLookups
import Tgdcfs.Backends.OverflowDocuments

/-!
# Who holds a document

The ledger of the store relates the versions of the channel, the requests in
flight, the calls and the map of overflow documents.  Every change the store
makes to it is one of a few moves.
-/

namespace Tgdcfs

open Lib

/-- The request that a call has made. -/
structure TextCall.Sends (channel : Channel) (request : TextCall)
    (overflow : Option Int) (edit : EditCall) : Prop where
  stage : request.stage = .sending overflow
  text : edit.text = request.sent overflow
  target : ∀ id, request.messageId = some id → edit.messageId = id
  editable : channel.HoldsText edit.messageId
  made : ∀ version, edit.version = some version →
    ∃ message, (channel.versions edit.messageId)[version]? = some message ∧
      message.text = edit.text

/-- What a call knows. -/
structure TextCall.Sound (channel : Channel) (documents : Dict Int String)
    (edit : Option EditCall) (request : TextCall) : Prop where
  plain : isMarker request.text = false
  editable : ∀ id, request.messageId = some id → channel.HoldsText id
  stored : ∀ document, request.stage = .sending (some document) →
    documents.get? document = some request.text
  sends : ∀ current, edit = some current →
    ∃ overflow, request.Sends channel overflow current
  superseded : ∀ document, request.superseded = some document →
    ∃ id version, request.messageId = some id ∧
      channel.Points id version document ∧
      ∀ current made, edit = some current → current.version = some made →
        version < made
  deleting : ∀ gone, request.stage = .deleting gone →
    ∀ document ∈ gone, channel.Superseded document

/-- A new version of a text message or the first one of a document. -/
structure Channel.Adds (channel : Channel) (id : Int) (message : MessageResp) :
    Prop where
  text : channel.HoldsText id → message.document = none
  document : channel.HoldsDocument id → message.document.isSome = true

namespace TextCall

variable {channel : Channel} {documents grown : Dict Int String}
  {edit : Option EditCall} {request : TextCall}

theorem Sends.append {overflow : Option Int} {current : EditCall}
    (sends : request.Sends channel overflow current) {id : Int}
    {message : MessageResp} (adds : channel.Adds id message) :
    request.Sends (channel.append id message) overflow current := by
  refine { sends with editable := ?_, made := ?_ }
  · apply sends.editable.append
    intro same
    exact adds.text (same ▸ sends.editable)
  · intro version isMade
    obtain ⟨found, listed, same⟩ := sends.made version isMade
    exact ⟨found, (channel.append_grows id message).versions _ _ _ listed,
      same⟩

theorem Sound.append (sound : request.Sound channel documents edit) {id : Int}
    {message : MessageResp} (adds : channel.Adds id message)
    (grows : ∀ document text, documents.get? document = some text →
      grown.get? document = some text) :
    request.Sound (channel.append id message) grown edit := by
  refine ⟨sound.plain, ?_, ?_, ?_, ?_, ?_⟩
  · intro target isTarget
    apply (sound.editable target isTarget).append
    intro same
    exact adds.text (same ▸ sound.editable target isTarget)
  · intro document stage
    exact grows document _ (sound.stored document stage)
  · intro current same
    obtain ⟨overflow, sends⟩ := sound.sends current same
    exact ⟨overflow, sends.append adds⟩
  · intro document isSuperseded
    obtain ⟨target, version, isTarget, points, below⟩ :=
      sound.superseded document isSuperseded
    exact ⟨target, version, isTarget, points.append id message, below⟩
  · intro gone stage document member
    exact (sound.deleting gone stage document member).append id message

end TextCall

/-- A text is a version of a text message or the first of a new one. -/
theorem Channel.adds_plain {channel : Channel} {message : MessageResp}
    (plain : message.document = none)
    (editable : channel.HoldsText message.messageId ∨
      channel.versions message.messageId = []) :
    channel.Adds message.messageId message ∧
      (channel.append message.messageId message).HoldsText
        message.messageId := by
  refine ⟨⟨fun _ => plain, ?_⟩, ?_⟩
  · intro document
    rcases editable with holds | unused
    · exact (holds.not_document document).elim
    · exact (document.1 unused).elim
  · rcases editable with before | unused
    · exact before.append fun _ => plain
    · refine ⟨Channel.append_ne_nil (.inr rfl), ?_⟩
      intro entry member
      rcases Channel.mem_append member with before | ⟨_, rfl⟩
      · rw [unused] at before
        cases before
      · exact plain

/-- What a call knows once its request has taken effect. -/
theorem TextCall.Sound.sent {channel : Channel}
    {documents : Dict Int String} {edit : Option EditCall}
    {request : TextCall} (sound : request.Sound channel documents edit)
    {message : MessageResp} {overflow : Option Int}
    (stage : request.stage = .sending overflow)
    (text : message.text = request.sent overflow)
    (plain : message.document = none)
    (editable : channel.HoldsText message.messageId ∨
      channel.versions message.messageId = [])
    (target : ∀ id, request.messageId = some id → message.messageId = id) :
    request.Sound (channel.append message.messageId message) documents
      (some ⟨message.messageId, message.text,
        some (channel.versions message.messageId).length⟩) := by
  obtain ⟨adds, holds⟩ := Channel.adds_plain plain editable
  refine { sound.append adds fun _ _ stored => stored with
    sends := ?_, superseded := ?_ }
  · intro current same
    cases same
    refine ⟨overflow, stage, text, target, holds, ?_⟩
    intro version made
    cases made
    exact ⟨message, channel.append_last _ _, rfl⟩
  · intro document isSuperseded
    obtain ⟨id, version, isTarget, ⟨entry, listed, marked⟩, _⟩ :=
      sound.superseded document isSuperseded
    have inside : version < (channel.versions id).length :=
      (List.getElem?_eq_some_iff.mp listed).1
    refine ⟨id, version, isTarget,
      Channel.Points.append ⟨entry, listed, marked⟩ _ _, ?_⟩
    intro current made same isMade
    cases same
    cases isMade
    rw [target id isTarget]
    exact inside

/-- A document is pointed to by one version, by the one that the call which
uploaded it makes while that call lasts.  What is mapped or deleted was
pointed to. -/
structure Ledger (channel : Channel) (edits : Dict Nat EditCall)
    (documents : Dict Int String) (calls : Dict Nat TextCall)
    (overflowOf : Dict Int Int) (deleted : List Int) : Prop where
  kinds : ∀ id, channel.versions id = [] ∨ channel.HoldsText id ∨
    channel.HoldsDocument id
  valid : ∀ document text, documents.get? document = some text →
    IsMessageId document ∧ channel.HoldsDocument document
  stored : ∀ id version document, channel.Points id version document →
    ∃ text, documents.get? document = some text
  once : ∀ id version other another document,
    channel.Points id version document →
      channel.Points other another document → id = other ∧ version = another
  sound : ∀ call request, calls.get? call = some request →
    request.Sound channel documents (edits.get? call)
  known : ∀ call edit, edits.get? call = some edit →
    ∃ request, calls.get? call = some request
  carriers : ∀ call request other another document,
    calls.get? call = some request →
      request.stage = .sending (some document) →
        calls.get? other = some another →
          another.stage = .sending (some document) → call = other
  carried : ∀ call request document id version,
    calls.get? call = some request →
      request.stage = .sending (some document) →
        channel.Points id version document →
          ∃ edit, edits.get? call = some edit ∧ edit.messageId = id ∧
            edit.version = some version
  mapped : ∀ id document, overflowOf.get? id = some document →
    ∃ version, channel.Points id version document
  gone : ∀ document ∈ deleted, channel.Superseded document

namespace Ledger

variable {channel : Channel} {edits : Dict Nat EditCall}
  {documents : Dict Int String} {calls : Dict Nat TextCall}
  {overflowOf : Dict Int Int} {deleted : List Int}

variable {document : Int}

/-- A document is not a message that points to another one. -/
theorem unmapped
    (ledger : Ledger channel edits documents calls overflowOf deleted)
    (attached : channel.HoldsDocument document) :
    overflowOf.get? document = none := by
  cases found : overflowOf.get? document with
  | none => rfl
  | some other =>
      obtain ⟨version, message, listed, marks⟩ :=
        ledger.mapped document other found
      have isDocument := attached.2 message (List.mem_of_getElem? listed)
      rw [markerOf_document isDocument] at marks
      cases marks

/-- The current text of a message does not point to a deleted document. -/
theorem current_stays
    (ledger : Ledger channel edits documents calls overflowOf deleted)
    {id : Int} {version : Nat} (points : channel.Points id version document)
    (current : version + 1 = (channel.versions id).length) :
    document ∉ deleted := by
  intro member
  obtain ⟨other, old, before, superseded⟩ := ledger.gone document member
  obtain ⟨rfl, rfl⟩ := ledger.once _ _ _ _ document points before
  omega

variable {message : MessageResp}

variable (ledger : Ledger channel edits documents calls overflowOf deleted)
include ledger

theorem holdsText {id : Int} (member : message ∈ channel.versions id)
    (plain : message.document = none) : channel.HoldsText id := by
  rcases ledger.kinds id with unused | text | document
  · rw [unused] at member
    cases member
  · exact text
  · have attached := document.2 message member
    rw [plain] at attached
    cases attached

theorem holdsDocument (superseded : channel.Superseded document) :
    channel.HoldsDocument document := by
  obtain ⟨id, version, points, _⟩ := superseded
  obtain ⟨text, found⟩ := ledger.stored id version document points
  exact (ledger.valid document text found).2

theorem kinds_append {target : Int}
    (there : (channel.append target message).HoldsText target ∨
      (channel.append target message).HoldsDocument target) (id : Int) :
    (channel.append target message).versions id = [] ∨
      (channel.append target message).HoldsText id ∨
      (channel.append target message).HoldsDocument id := by
  by_cases same : id = target
  · exact .inr (same ▸ there)
  · rcases ledger.kinds id with unused | text | document
    · left
      simp only [Channel.append, Function.update_of_ne same, unused]
    · exact .inr (.inl (text.append fun here => (same here).elim))
    · exact .inr (.inr (document.append fun here => (same here).elim))

theorem complete (id : Int) (version : Nat) :
    Ledger (channel.complete id version) edits documents calls overflowOf
      deleted :=
  ⟨ledger.kinds, ledger.valid, ledger.stored, ledger.once, fun call request known =>
      ⟨(ledger.sound call request known).plain,
        (ledger.sound call request known).editable,
        (ledger.sound call request known).stored,
        fun current same =>
          let ⟨overflow, sends⟩ :=
            (ledger.sound call request known).sends current same
          ⟨overflow, sends.stage, sends.text, sends.target, sends.editable,
            sends.made⟩,
        (ledger.sound call request known).superseded,
        (ledger.sound call request known).deleting⟩,
    ledger.known, ledger.carriers, ledger.carried, ledger.mapped,
    ledger.gone⟩

omit ledger

variable {call : Nat} {request : TextCall}

variable (ledger : Ledger channel edits documents calls overflowOf deleted)
include ledger

theorem put {changed : Dict Nat EditCall}
    (elsewhere : ∀ other, other ≠ call →
      changed.get? other = edits.get? other)
    (sound : request.Sound channel documents (changed.get? call))
    (carries : ∀ document, request.stage = .sending (some document) →
      (∀ id version, ¬channel.Points id version document) ∧
        ∀ other another, calls.get? other = some another →
          another.stage ≠ .sending (some document)) :
    Ledger channel changed documents (calls.set call request) overflowOf
      deleted := by
  refine { ledger with
    sound := ?_, known := ?_, carriers := ?_, carried := ?_ }
  · intro other another found
    rw [Dict.get?_set] at found
    split at found
    · rename_i same
      cases found
      exact same ▸ sound
    · rename_i different
      rw [elsewhere other different]
      exact ledger.sound other another found
  · intro other edit found
    rw [Dict.get?_set]
    split
    · exact ⟨request, rfl⟩
    · rename_i different
      rw [elsewhere other different] at found
      exact ledger.known other edit found
  · intro first firstRequest second secondRequest document found stage
      foundToo stageToo
    rw [Dict.get?_set] at found foundToo
    split at found
    · rename_i isFirst
      split at foundToo
      · rename_i isSecond
        rw [isFirst, isSecond]
      · cases found
        exact ((carries document stage).2 second secondRequest foundToo
          stageToo).elim
    · split at foundToo
      · cases foundToo
        exact ((carries document stageToo).2 first firstRequest found
          stage).elim
      · exact ledger.carriers first firstRequest second secondRequest document
          found stage foundToo stageToo
  · intro other another document id version found stage points
    rw [Dict.get?_set] at found
    split at found
    · cases found
      exact ((carries document stage).1 id version points).elim
    · rename_i different
      rw [elsewhere other different]
      exact ledger.carried other another document id version found stage
        points

theorem drop {changed : Dict Nat EditCall}
    (elsewhere : ∀ other, other ≠ call →
      changed.get? other = edits.get? other)
    (gone : changed.get? call = none) :
    Ledger channel changed documents (calls.erase call) overflowOf
      deleted := by
  have before : ∀ other another, (calls.erase call).get? other =
      some another → other ≠ call ∧ calls.get? other = some another := by
    intro other another found
    rw [Dict.get?_erase] at found
    split at found
    · cases found
    · rename_i different
      exact ⟨different, found⟩
  refine { ledger with
    sound := ?_, known := ?_, carriers := ?_, carried := ?_ }
  · intro other another found
    obtain ⟨different, was⟩ := before other another found
    rw [elsewhere other different]
    exact ledger.sound other another was
  · intro other edit found
    rw [Dict.get?_erase]
    split
    · rename_i same
      rw [same, gone] at found
      cases found
    · rename_i different
      rw [elsewhere other different] at found
      exact ledger.known other edit found
  · intro first firstRequest second secondRequest document found stage
      foundToo stageToo
    exact ledger.carriers first firstRequest second secondRequest document
      (before _ _ found).2 stage (before _ _ foundToo).2 stageToo
  · intro other another document id version found stage points
    obtain ⟨different, was⟩ := before other another found
    rw [elsewhere other different]
    exact ledger.carried other another document id version was stage points

theorem upload (attached : message.document.isSome)
    (valid : IsMessageId message.messageId)
    (unused : channel.versions message.messageId = []) (text : String) :
    Ledger (channel.append message.messageId message) edits
      (documents.set message.messageId text) calls overflowOf deleted := by
  have unknown : documents.get? message.messageId = none := by
    cases found : documents.get? message.messageId with
    | none => rfl
    | some other =>
        exact ((ledger.valid _ other found).2.1 unused).elim
  have adds : channel.Adds message.messageId message :=
    ⟨fun holds => (holds.1 unused).elim, fun _ => attached⟩
  have grows : ∀ document other,
      documents.get? document = some other →
        (documents.set message.messageId text).get? document =
          some other := by
    intro document other found
    rw [Dict.get?_set, if_neg]
    · exact found
    · rintro rfl
      rw [unknown] at found
      cases found
  have points : ∀ id version document,
      (channel.append message.messageId message).Points id version document →
        channel.Points id version document := by
    intro id version document pointing
    rcases Channel.points_append pointing with before | ⟨_, _, marks⟩
    · exact before
    · rw [markerOf_document attached] at marks
      cases marks
  have holds : (channel.append message.messageId message).HoldsDocument
      message.messageId := by
    refine ⟨Channel.append_ne_nil (.inr rfl), ?_⟩
    intro entry member
    rcases Channel.mem_append member with before | ⟨_, rfl⟩
    · rw [unused] at before
      cases before
    · exact attached
  refine ⟨ledger.kinds_append (.inr holds), ?_, ?_, ?_, ?_, ledger.known,
    ledger.carriers, ?_, ?_, ?_⟩
  · intro document other found
    rw [Dict.get?_set] at found
    split at found
    · rename_i same
      subst same
      exact ⟨valid, holds⟩
    · obtain ⟨isId, holds⟩ := ledger.valid document other found
      exact ⟨isId, holds.append fun _ => attached⟩
  · intro id version document pointing
    obtain ⟨other, found⟩ := ledger.stored id version document
      (points id version document pointing)
    exact ⟨other, grows document other found⟩
  · intro id version other another document first second
    exact ledger.once id version other another document
      (points _ _ _ first) (points _ _ _ second)
  · intro call request known
    exact (ledger.sound call request known).append adds grows
  · intro call request document id version known stage pointing
    exact ledger.carried call request document id version known stage
      (points _ _ _ pointing)
  · intro id document found
    obtain ⟨version, pointing⟩ := ledger.mapped id document found
    exact ⟨version, pointing.append _ _⟩
  · intro document member
    exact (ledger.gone document member).append _ _

theorem apply {overflow : Option Int} (known : calls.get? call = some request)
    (stage : request.stage = .sending overflow)
    (unmade : ∀ edit, edits.get? call = some edit → edit.version = none)
    (text : message.text = request.sent overflow)
    (plain : message.document = none)
    (editable : channel.HoldsText message.messageId ∨
      channel.versions message.messageId = [])
    (target : ∀ id, request.messageId = some id → message.messageId = id) :
    Ledger (channel.append message.messageId message)
      (edits.set call ⟨message.messageId, message.text,
        some (channel.versions message.messageId).length⟩)
      documents calls overflowOf deleted := by
  have sound := ledger.sound call request known
  obtain ⟨adds, holds⟩ := Channel.adds_plain plain editable
  have marks : markerOf message = overflow := by
    have same : message = ⟨message.messageId, request.sent overflow, none⟩ := by
      rw [← text, ← plain]
    rw [same]
    apply markerOf_sent sound.plain
    intro document isOverflow
    exact (ledger.valid document _ (sound.stored document
      (isOverflow ▸ stage))).1
  -- A version that points to the document would be one that the call made.
  have fresh : ∀ document, overflow = some document →
      ∀ id version, ¬channel.Points id version document := by
    rintro document rfl id version points
    obtain ⟨edit, isEdit, _, made⟩ :=
      ledger.carried call request document id version known stage points
    rw [unmade edit isEdit] at made
    cases made
  have unmarked : ∀ {document}, markerOf message = some document →
      overflow = some document := fun same => marks.symm.trans same
  refine ⟨ledger.kinds_append (.inl holds), ?_, ?_, ?_, ?_, ?_,
    ledger.carriers, ?_, ?_, ?_⟩
  · intro document other found
    obtain ⟨isId, document_⟩ := ledger.valid document other found
    refine ⟨isId, document_.append ?_⟩
    intro same
    exact adds.document (same ▸ document_)
  · intro id version document points
    rcases Channel.points_append points with before | ⟨_, _, same⟩
    · exact ledger.stored id version document before
    · cases unmarked same
      exact ⟨_, sound.stored document stage⟩
  · intro id version other another document first second
    rcases Channel.points_append first with before | ⟨rfl, rfl, same⟩
    · rcases Channel.points_append second with beforeToo | ⟨rfl, rfl, sameToo⟩
      · exact ledger.once id version other another document before beforeToo
      · exact (fresh document (unmarked sameToo) _ _ before).elim
    · rcases Channel.points_append second with beforeToo | ⟨rfl, rfl, _⟩
      · exact (fresh document (unmarked same) _ _ beforeToo).elim
      · exact ⟨rfl, rfl⟩
  · intro other another found
    rw [Dict.get?_set]
    split
    · rename_i same
      subst same
      rw [known] at found
      cases found
      exact sound.sent stage text plain editable target
    · exact (ledger.sound other another found).append adds
        fun _ _ stored => stored
  · intro other edit found
    rw [Dict.get?_set] at found
    split at found
    · rename_i same
      exact ⟨request, same ▸ known⟩
    · exact ledger.known other edit found
  · intro other another document id version found stageToo points
    rw [Dict.get?_set]
    rcases Channel.points_append points with before | ⟨rfl, rfl, same⟩
    · obtain ⟨edit, isEdit, isTarget, made⟩ :=
        ledger.carried other another document id version found stageToo before
      rw [if_neg]
      · exact ⟨edit, isEdit, isTarget, made⟩
      · rintro rfl
        rw [unmade edit isEdit] at made
        cases made
    · have isCall := ledger.carriers other another call request document found
        stageToo known (unmarked same ▸ stage)
      rw [if_pos isCall]
      exact ⟨_, rfl, rfl, rfl⟩
  · intro id document found
    obtain ⟨version, points⟩ := ledger.mapped id document found
    exact ⟨version, points.append _ _⟩
  · intro document member
    exact (ledger.gone document member).append _ _

theorem made_points (known : calls.get? call = some request)
    (stage : request.stage = .sending (some document)) {edit : EditCall}
    (isEdit : edits.get? call = some edit) {version : Nat}
    (made : edit.version = some version) :
    channel.Points edit.messageId version document := by
  have sound := ledger.sound call request known
  obtain ⟨overflow, sends⟩ := sound.sends edit isEdit
  cases sends.stage.symm.trans stage
  obtain ⟨message, listed, text⟩ := sends.made version made
  refine ⟨message, listed, ?_⟩
  have plain := sends.editable.2 message (List.mem_of_getElem? listed)
  have same : message =
      ⟨message.messageId, request.sent (some document), none⟩ := by
    rw [← sends.text, ← text, ← plain]
  rw [same]
  apply markerOf_sent sound.plain
  rintro other ⟨⟩
  exact (ledger.valid document _ (sound.stored document stage)).1

/-- What an edit that took effect found in the map belongs to an older
version. -/
theorem superseded_below (known : calls.get? call = some request)
    (superseded : request.superseded = some document) {edit : EditCall}
    (isEdit : edits.get? call = some edit) {version : Nat}
    (made : edit.version = some version) : channel.Superseded document := by
  have sound := ledger.sound call request known
  obtain ⟨id, old, isTarget, points, below⟩ :=
    sound.superseded document superseded
  obtain ⟨overflow, sends⟩ := sound.sends edit isEdit
  obtain ⟨message, listed, _⟩ := sends.made version made
  rw [sends.target id isTarget] at listed
  have inside : version < (channel.versions id).length :=
    (List.getElem?_eq_some_iff.mp listed).1
  have order := below edit version isEdit made
  exact ⟨id, old, points, by omega⟩

end Ledger

end Tgdcfs
