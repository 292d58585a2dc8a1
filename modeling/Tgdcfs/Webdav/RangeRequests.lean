import Tgdcfs.Core.Version
import Tgdcfs.Crypto.Tampering
import Tgdcfs.Lib.Text

/-!
# GET with a range

The handler reads one byte range from the `Range` header, asks the resource
for the content and its length, and describes the body in the headers.  The
content is a generator: what goes wrong in it goes wrong after the headers are
sent.
-/

namespace Tgdcfs

open Lib

/-- A file as `get` reads it: `fc_repo.get` and `fc_repo.content_length` for
its latest version. -/
structure WebdavResource where
  retrieve : Int → Int → Except CryptoError (ByteStream CryptoError)
  contentLength : Except CryptoError Int
  lastModified : Int

/-- The generator of `FileApi.retrieve`, which opens the content when its first
chunk is wanted. -/
def WebdavResource.getContent (resource : WebdavResource)
    (begin_ end_ : Int) : ByteStream CryptoError :=
  match resource.retrieve begin_ end_ with
  | .error failure => ⟨[], some failure⟩
  | .ok stream => stream

inductive WebdavMember where
  | folder
  | resource (resource : WebdavResource)

inductive HTTPStatus where
  | ok
  | partialContent
  deriving DecidableEq, Repr

structure StreamingResponse where
  status : HTTPStatus
  lastModified : String
  acceptRanges : String
  contentRange : Option String
  contentLength : String
  mediaType : String
  content : ByteStream CryptoError

inductive RequestError where
  | invalidLiteral
  | expectedResource
  | content (error : CryptoError)

inductive GetAnswer where
  | streaming (response : StreamingResponse)
  | notFound
  | raised (error : RequestError)

/-- `begin`, `end` and `is_range_request` after the header was read; `none`
when `int` raises. -/
def parseRange : Option (List Char) → Option (Int × Int × Bool)
  | none => some (0, -1, false)
  | some header =>
      if "bytes=".toList.isPrefixOf header then
        let value := header.drop "bytes=".toList.length
        match value.dropWhile (· ≠ '-') with
        | [] => (parseInt value).map fun begin_ => (begin_, -1, true)
        | _ :: endStr =>
            let beginStr := value.takeWhile (· ≠ '-')
            (if beginStr = [] then some 0 else parseInt beginStr).bind
              fun begin_ =>
                (if endStr = [] then some (-1) else parseInt endStr).map
                  fun end_ => (begin_, end_, true)
      else some (0, -1, false)

def get (range : Option (List Char)) (member : Option WebdavMember) :
    GetAnswer :=
  match parseRange range with
  | none => .raised .invalidLiteral
  | some (begin_, end_, isRangeRequest) =>
      match member with
      | none => .notFound
      | some .folder => .raised .expectedResource
      | some (.resource resource) =>
          match resource.contentLength with
          | .error failure => .raised (.content failure)
          | .ok contentLength =>
              let last := contentLength - 1
              let actualEnd := min (if end_ ≠ -1 then end_ else last) last
              .streaming
                { status := if isRangeRequest then .partialContent else .ok
                  lastModified := toString resource.lastModified
                  acceptRanges := "bytes"
                  contentRange :=
                    if isRangeRequest then
                      some ("bytes " ++ toString begin_ ++ "-" ++
                        toString actualEnd ++ "/" ++ toString contentLength)
                    else none
                  contentLength :=
                    if isRangeRequest then
                      toString (max 0 (actualEnd - begin_ + 1))
                    else toString contentLength
                  mediaType := "application/octet-stream"
                  content := resource.getContent begin_ end_ }

namespace WebdavResource

/-- A file of a repository without encryption. -/
def bare (size : Int) (inner : InnerGet) (lastModified : Int) :
    WebdavResource :=
  { retrieve := fun begin_ end_ =>
      if size ≤ 0 then .ok ⟨[], none⟩ else inner begin_ end_
    contentLength := .ok size
    lastModified := lastModified }

/-- A file of a repository with encryption.  The length is asked for before
the content is opened, so the calls may find different header caches. -/
def decrypting (primitives : CryptoPrimitives) (repo : EncryptingRepository)
    (cache later : HeaderCache) (id name : String) (size : Nat)
    (inner : InnerGet) (lastModified : Int) : WebdavResource :=
  { retrieve := fun begin_ end_ =>
      (repo.get primitives later id size name begin_ end_ inner).2
    contentLength :=
      (repo.contentLength primitives cache id size inner).2.map Int.ofNat
    lastModified := lastModified }

open EncryptingRepository in
/-- The resource is a file with this content, and whether it can be read:
without encryption, where a file that was only touched has no size; encrypted;
or stored plain under a repository with encryption. -/
inductive Holds : Bytes → Prop → WebdavResource → Prop where
  | bare {content : Bytes} {inner : InnerGet} (size lastModified : Int)
      (sized : size = content.length ∨ content = [] ∧ size = INVALID_FILE_SIZE)
      (serves : Serves content inner) :
      Holds content True (bare size inner lastModified)
  | encrypted {primitives : CryptoPrimitives} (lawful : primitives.Lawful)
      (repo : EncryptingRepository) {version : WrittenVersion}
      {files : String → Bytes} {cache later : HeaderCache}
      (reached : Reached primitives repo files cache)
      (reachedLater : Reached primitives repo files later)
      {id : String} (name : String) {inner : InnerGet} (lastModified : Int)
      (isFile : files id = version.stored lawful repo.masterKey)
      (serves : Serves (files id) inner) :
      Holds version.content (version.chunkSize ≤ CHUNK_SIZE_CEILING)
        (decrypting primitives repo cache later id name (files id).length
          inner lastModified)
  | plain {primitives : CryptoPrimitives} (repo : EncryptingRepository)
      {files : String → Bytes} {cache later : HeaderCache}
      (reached : Reached primitives repo files cache)
      (reachedLater : Reached primitives repo files later)
      {id : String} (name : String) {inner : InnerGet} (lastModified : Int)
      (unverified : ∀ entry, repo.classify primitives ""
        ((files id).take HEADER_SIZE) ≠ .ok (some entry))
      (serves : Serves (files id) inner) :
      Holds (files id) ((files id).take MAGIC.length ≠ MAGIC)
        (decrypting primitives repo cache later id name (files id).length
          inner lastModified)

end WebdavResource

/-- One byte range as a client may write it. -/
inductive ByteRangeSpec where
  | fromTo (first last : Decimal) (ordered : first.value ≤ last.value)
  | from_ (first : Decimal)
  | suffix (length : Decimal)

namespace ByteRangeSpec

/-- The value of the `Range` header behind the unit. -/
def text : ByteRangeSpec → List Char
  | .fromTo first last _ => first.text ++ '-' :: last.text
  | .from_ first => first.text ++ ['-']
  | .suffix length => '-' :: length.text

/-- The value of the `Range` header; the unit may be written in any case. -/
def header (unit : List Char) (spec : ByteRangeSpec) : List Char :=
  unit ++ '=' :: spec.text

/-- The first and the last position the range denotes in a file of this size;
`none` when it denotes no byte. -/
def denotes (size : Nat) : ByteRangeSpec → Option (Nat × Nat)
  | .fromTo first last _ =>
      if first.value < size then
        some (first.value, min last.value (size - 1))
      else none
  | .from_ first =>
      if first.value < size then some (first.value, size - 1) else none
  | .suffix length =>
      if 0 < length.value ∧ 0 < size then
        some (size - min length.value size, size - 1)
      else none

/-- What RFC 7233 asks of the answer. -/
def Follows (content : Bytes) (spec : ByteRangeSpec) (answer : GetAnswer) :
    Prop :=
  match spec.denotes content.length with
  | some (first, last) =>
      ∃ response, answer = .streaming response ∧
        response.status = .partialContent ∧
        response.content.error = none ∧
        response.content.chunks.flatten = byteRange content first last ∧
        response.contentRange = some ("bytes " ++ toString first ++ "-" ++
          toString last ++ "/" ++ toString content.length) ∧
        response.contentLength = toString (last + 1 - first)
  | none =>
      ∀ response, answer = .streaming response →
        response.status ≠ .partialContent

/-- A number of the range is longer than `int` reads. -/
def Overlong : ByteRangeSpec → Prop
  | .fromTo first last _ =>
      maxDigits < first.text.length ∨ maxDigits < last.text.length
  | .from_ first => maxDigits < first.text.length
  | .suffix length => maxDigits < length.text.length

instance (spec : ByteRangeSpec) : Decidable spec.Overlong :=
  match spec with
  | .fromTo _ _ _ => inferInstanceAs (Decidable (_ ∨ _))
  | .from_ _ | .suffix _ => inferInstanceAs (Decidable (_ < _))

/-- When the handler does: the range begins inside the file and is given by
its positions, or its suffix is the whole file. -/
def Served (size : Nat) : ByteRangeSpec → Prop
  | .fromTo first _ _ | .from_ first => first.value < size
  | .suffix length => 0 < size ∧ size ≤ length.value

instance (size : Nat) (spec : ByteRangeSpec) : Decidable (spec.Served size) :=
  match spec with
  | .fromTo _ _ _ | .from_ _ => inferInstanceAs (Decidable (_ < _))
  | .suffix _ => inferInstanceAs (Decidable (_ ∧ _))

theorem digits_ahead (decimal : Decimal) :
    ∀ character ∈ decimal.text, decide (character ≠ '-') = true := by
  intro character member
  have digit := decimal.digits character member
  refine decide_eq_true ?_
  rintro rfl
  cases digit

/-- Behind the unit the header is split at its first dash. -/
theorem parseRange_dash {first : List Char} (second : List Char)
    (ahead : ∀ character ∈ first, decide (character ≠ '-') = true) :
    parseRange (some ("bytes".toList ++ '=' :: (first ++ '-' :: second))) =
      (if first = [] then some 0 else parseInt first).bind fun begin_ =>
        (if second = [] then some (-1) else parseInt second).map fun end_ =>
          (begin_, end_, true) := by
  have unit : "bytes=".toList.isPrefixOf
      ("bytes=".toList ++ (first ++ '-' :: second)) = true :=
    List.isPrefixOf_iff_prefix.mpr (List.prefix_append _ _)
  change parseRange (some ("bytes=".toList ++ (first ++ '-' :: second))) = _
  unfold parseRange
  dsimp only
  rw [if_pos unit, List.drop_left, List.dropWhile_append_of_pos ahead,
    List.dropWhile_cons_of_neg (by simp), List.takeWhile_append_of_pos ahead,
    List.takeWhile_cons_of_neg (by simp), List.append_nil]

/-- The bounds the handler works with. -/
def bounds : ByteRangeSpec → Int × Int
  | .fromTo first last _ => (first.value, last.value)
  | .from_ first => (first.value, -1)
  | .suffix length => (0, length.value)

theorem parseRange_fromTo {first last : Decimal}
    (ordered : first.value ≤ last.value) :
    parseRange (some ((fromTo first last ordered).header "bytes".toList)) =
      (parseInt first.text).bind fun begin_ =>
        (parseInt last.text).map fun end_ => (begin_, end_, true) := by
  refine (parseRange_dash _ (digits_ahead first)).trans ?_
  rw [if_neg first.nonempty, if_neg last.nonempty]

theorem parseRange_from (first : Decimal) :
    parseRange (some ((from_ first).header "bytes".toList)) =
      (parseInt first.text).map fun begin_ => (begin_, -1, true) := by
  refine (parseRange_dash _ (digits_ahead first)).trans ?_
  rw [if_neg first.nonempty]
  cases parseInt first.text <;> rfl

theorem parseRange_suffix (length : Decimal) :
    parseRange (some ((suffix length).header "bytes".toList)) =
      (parseInt length.text).map fun end_ => (0, end_, true) := by
  refine (parseRange_dash length.text (List.forall_mem_nil _)).trans ?_
  rw [if_neg length.nonempty]
  rfl

theorem parseRange_overlong {spec : ByteRangeSpec} (long : spec.Overlong) :
    parseRange (some (spec.header "bytes".toList)) = none := by
  cases spec with
  | fromTo first last ordered =>
      rw [parseRange_fromTo, parseInt_decimal, parseInt_decimal]
      by_cases early : maxDigits < first.text.length
      · rw [if_pos early]
        rfl
      · have late : maxDigits < last.text.length := long.resolve_left early
        rw [if_neg early, if_pos late]
        rfl
  | from_ first =>
      change maxDigits < first.text.length at long
      rw [parseRange_from, parseInt_decimal, if_pos long]
      rfl
  | suffix length =>
      change maxDigits < length.text.length at long
      rw [parseRange_suffix, parseInt_decimal, if_pos long]
      rfl

theorem parseRange_header {spec : ByteRangeSpec} (short : ¬spec.Overlong) :
    parseRange (some (spec.header "bytes".toList)) =
      some (spec.bounds.1, spec.bounds.2, true) := by
  cases spec with
  | fromTo first last ordered =>
      obtain ⟨early, late⟩ := not_or.mp short
      rw [parseRange_fromTo, parseInt_decimal, parseInt_decimal,
        if_neg early, if_neg late]
      rfl
  | from_ first =>
      change ¬maxDigits < first.text.length at short
      rw [parseRange_from, parseInt_decimal, if_neg short]
      rfl
  | suffix length =>
      change ¬maxDigits < length.text.length at short
      rw [parseRange_suffix, parseInt_decimal, if_neg short]
      rfl

/-- A unit in other letters is not recognized. -/
theorem parseRange_other (spec : ByteRangeSpec) {unit : List Char}
    (isUnit : unit.map Char.toLower = "bytes".toList)
    (other : unit ≠ "bytes".toList) :
    parseRange (some (spec.header unit)) = some (0, -1, false) := by
  have unread : ¬"bytes=".toList.isPrefixOf (spec.header unit) = true := by
    intro begins
    apply other
    have lengths := congrArg List.length isUnit
    rw [List.length_map] at lengths
    obtain ⟨rest, whole⟩ := List.isPrefixOf_iff_prefix.mp begins
    have split : "bytes".toList ++ ('=' :: rest) = unit ++ ('=' :: spec.text) :=
      whole
    exact (List.append_inj_left split lengths.symm).symm
  unfold parseRange
  dsimp only
  rw [if_neg unread]

end ByteRangeSpec

namespace WebdavResource

open EncryptingRepository

variable {content : Bytes} {resource : WebdavResource}

variable {primitives : CryptoPrimitives} {repo : EncryptingRepository}
  {cache : HeaderCache}

theorem detect_eq_classify {files : String → Bytes}
    (reached : Reached primitives repo files cache) {id : String}
    (name : String) {inner : InnerGet} (serves : Serves (files id) inner) :
    (repo.detect primitives cache id (files id).length name inner).2 =
      repo.classify primitives name ((files id).take HEADER_SIZE) := by
  cases cached : cache.lookup id with
  | none => exact detect_fresh serves cached
  | some entry =>
      have same : repo.classify primitives name
          ((files id).take HEADER_SIZE) = .ok entry :=
        classify_ok_name (reached.agrees id entry cached)
      unfold detect
      rw [cached, same]

theorem contentLength_plain {id : String} {size : Nat} {inner : InnerGet}
    (detected : (repo.detect primitives cache id size "" inner).2 =
      .ok none) :
    (repo.contentLength primitives cache id size inner).2 = .ok size := by
  unfold EncryptingRepository.contentLength
  split
  · rename_i empty
    rw [empty]
  · generalize repo.detect primitives cache id size "" inner = result
      at detected
    obtain ⟨next, found⟩ := result
    cases detected
    rfl

theorem contentLength_failed {id : String} {size : Nat} {inner : InnerGet}
    (stored : size ≠ 0) {error : CryptoError}
    (detected : (repo.detect primitives cache id size "" inner).2 =
      .error error) :
    (repo.contentLength primitives cache id size inner).2 =
      .error error := by
  unfold EncryptingRepository.contentLength
  rw [if_neg stored]
  generalize repo.detect primitives cache id size "" inner = result
    at detected
  obtain ⟨next, found⟩ := result
  cases detected
  rfl

theorem classify_unmarked {bytes : Bytes} (name : String)
    (unmarked : bytes.take MAGIC.length ≠ MAGIC) :
    repo.classify primitives name (bytes.take HEADER_SIZE) = .ok none :=
  classify_stripped (.inr unmarked)

theorem Holds.contentLength_ok {readable : Prop}
    (holds : Holds content readable resource) (read : readable) :
    ∃ size, resource.contentLength = .ok size ∧
      (content ≠ [] → size = content.length) := by
  cases holds with
  | bare size lastModified sized serves =>
      refine ⟨size, rfl, fun filled => ?_⟩
      rcases sized with same | ⟨empty, _⟩
      · exact same
      · exact (filled empty).elim
  | encrypted lawful repo reached _ name lastModified isFile serves =>
      have trips := written_round_trips lawful repo read _ _ _ name 0 0 _
        isFile reached (isFile ▸ serves) (Int.le_refl 0)
      rw [← isFile] at trips
      exact ⟨_, congrArg (Except.map Int.ofNat) trips.2, fun _ => rfl⟩
  | plain repo reached _ name lastModified unverified serves =>
      have detected := (detect_eq_classify reached "" serves).trans
        (classify_unmarked "" read)
      exact ⟨_, congrArg (Except.map Int.ofNat)
        (contentLength_plain detected), fun _ => rfl⟩

theorem Holds.contentLength_error {readable : Prop}
    (holds : Holds content readable resource) (unread : ¬readable) :
    ∃ failure, resource.contentLength = .error failure := by
  cases holds with
  | bare => exact (unread trivial).elim
  | @encrypted _ lawful repo version _ _ _ reached _ _ name _ lastModified
      isFile serves =>
      have stored := version.stored_ne_nil lawful repo.masterKey
      have refused := classify_refused lawful repo "" (Nat.lt_of_not_le unread)
      rw [← isFile] at stored
      rw [← WrittenVersion.stored_take_header lawful repo.masterKey, ← isFile,
        ← detect_eq_classify reached "" serves] at refused
      exact ⟨_, congrArg (Except.map Int.ofNat)
        (contentLength_failed stored refused)⟩
  | @plain _ repo files _ _ reached _ id name _ lastModified unverified serves =>
      have marked : ¬Stripped (files id) := by
        rintro (short | other)
        · apply unread
          intro same
          have lengths := congrArg List.length same
          rw [List.length_take] at lengths
          omega
        · exact unread other
      have stored : (files id).length ≠ 0 := by
        intro empty
        exact marked (.inl (by rw [empty]; decide))
      have detected := detect_eq_classify reached "" serves
      cases found : repo.classify _ "" ((files id).take HEADER_SIZE) with
      | error failure =>
          rw [found] at detected
          exact ⟨failure, congrArg (Except.map Int.ofNat)
            (contentLength_failed stored detected)⟩
      | ok entry =>
          cases entry with
          | none => exact (classify_not_none marked found).elim
          | some entry => exact (unverified entry found).elim

theorem Holds.getContent_eq {readable : Prop}
    (holds : Holds content readable resource) (read : readable)
    {first last : Nat} {end_ : Int} (ordered : first ≤ last)
    (clamped : clampEnd content.length end_ = last) :
    (resource.getContent first end_).error = none ∧
      (resource.getContent first end_).chunks.flatten =
        byteRange content first last := by
  have delivered : ∃ stream, resource.retrieve first end_ = .ok stream ∧
      stream.error = none ∧
        stream.chunks.flatten = byteRange content first last := by
    have inside : ∀ {inner : InnerGet}, Serves content inner →
        ∃ stream, inner first end_ = .ok stream ∧ stream.error = none ∧
          stream.chunks.flatten = byteRange content first last := by
      intro inner serves
      have asked := serves first end_
      rw [if_neg (by omega), clamped] at asked
      exact asked
    have filled : content.length ≠ 0 := by
      intro empty
      unfold clampEnd at clamped
      split at clamped <;> omega
    cases holds with
    | bare size lastModified sized serves =>
        obtain ⟨stream, answered, rest⟩ := inside serves
        have positive : ¬size ≤ 0 := by
          rcases sized with same | ⟨empty, _⟩
          · omega
          · exact (filled (List.length_eq_zero_iff.mpr empty)).elim
        exact ⟨stream, (if_neg positive).trans answered, rest⟩
    | encrypted lawful repo _ later name lastModified isFile serves =>
        have trips := written_round_trips lawful repo read _ _ _ name
          first end_ _ isFile later (isFile ▸ serves)
            (Int.natCast_nonneg first)
        rw [← isFile] at trips
        obtain ⟨⟨stream, answered, healthy, bytes⟩, _⟩ := trips
        rw [plaintextRange_inside clamped] at bytes
        exact ⟨stream, answered, healthy, bytes⟩
    | plain repo _ later name lastModified unverified serves =>
        obtain ⟨stream, answered, rest⟩ := inside serves
        have detected := (detect_eq_classify later name serves).trans
          (classify_unmarked name read)
        exact ⟨stream, (get_plain filled detected).trans answered, rest⟩
  obtain ⟨stream, answered, healthy, bytes⟩ := delivered
  rw [WebdavResource.getContent, answered]
  exact ⟨healthy, bytes⟩

end WebdavResource

namespace ByteRangeSpec

open EncryptingRepository

variable {content : Bytes} {resource : WebdavResource} {readable : Prop}

variable {spec : ByteRangeSpec}

theorem get_header (short : ¬spec.Overlong) {size : Int}
    (sized : resource.contentLength = .ok size) :
    get (some (spec.header "bytes".toList)) (some (.resource resource)) =
      let last := size - 1
      let actualEnd :=
        min (if spec.bounds.2 ≠ -1 then spec.bounds.2 else last) last
      .streaming
        { status := .partialContent
          lastModified := toString resource.lastModified
          acceptRanges := "bytes"
          contentRange := some ("bytes " ++ toString spec.bounds.1 ++ "-" ++
            toString actualEnd ++ "/" ++ toString size)
          contentLength := toString (max 0 (actualEnd - spec.bounds.1 + 1))
          mediaType := "application/octet-stream"
          content := resource.getContent spec.bounds.1 spec.bounds.2 } := by
  unfold get
  rw [parseRange_header short]
  dsimp only
  rw [sized]
  rfl

theorem get_overlong (long : spec.Overlong) (member : Option WebdavMember) :
    get (some (spec.header "bytes".toList)) member =
      .raised .invalidLiteral := by
  unfold get
  rw [parseRange_overlong long]

/-- An answer that is no partial content follows the standard only for a range
that denotes no byte. -/
theorem follows_of_whole {answer : GetAnswer}
    (whole : ∀ response, answer = .streaming response →
      response.status ≠ .partialContent) :
    spec.Follows content answer ↔ spec.denotes content.length = none := by
  unfold Follows
  cases spec.denotes content.length with
  | none => exact ⟨fun _ => rfl, fun _ => whole⟩
  | some positions =>
      constructor
      · rintro ⟨response, answered, isPartial, _⟩
        exact (whole response answered isPartial).elim
      · intro absurd
        cases absurd

variable (holds : resource.Holds content readable)
include holds

/-- A file that cannot be read, a unit in other letters and a number that is
too long are not answered with a partial content. -/
theorem get_whole {unit : List Char}
    (isUnit : unit.map Char.toLower = "bytes".toList)
    (unread : ¬(readable ∧ unit = "bytes".toList ∧ ¬spec.Overlong)) :
    ∀ response, get (some (spec.header unit)) (some (.resource resource)) =
      .streaming response → response.status ≠ .partialContent := by
  intro response answered
  by_cases same : unit = "bytes".toList
  · subst same
    by_cases long : spec.Overlong
    · rw [get_overlong long] at answered
      cases answered
    · obtain ⟨failure, failed⟩ := holds.contentLength_error fun read =>
        unread ⟨read, rfl, long⟩
      unfold get at answered
      rw [parseRange_header long] at answered
      dsimp only at answered
      rw [failed] at answered
      cases answered
  · unfold get at answered
    rw [parseRange_other spec isUnit same] at answered
    dsimp only at answered
    split at answered
    · cases answered
    · cases answered
      nofun

/-- A range inside the file is answered as the standard asks when the handler
works with the bounds it denotes. -/
theorem follows_of_bounds (read : readable) (short : ¬spec.Overlong)
    {first last : Nat}
    (denoted : spec.denotes content.length = some (first, last))
    (begins : spec.bounds.1 = first) (ordered : first ≤ last)
    (clamped : clampEnd content.length spec.bounds.2 = last)
    (ends : spec.bounds.2 = -1 ∨ 0 ≤ spec.bounds.2) :
    spec.Follows content
      (get (some (spec.header "bytes".toList)) (some (.resource resource))) := by
  have inside : last < content.length := by
    unfold clampEnd at clamped
    split at clamped <;> omega
  have actual : min (if spec.bounds.2 ≠ -1 then spec.bounds.2
      else (content.length : Int) - 1) ((content.length : Int) - 1) = last := by
    unfold clampEnd at clamped
    split at clamped <;> split <;> omega
  have count : max 0 ((last : Int) - first + 1) =
      ((last + 1 - first : Nat) : Int) := by omega
  obtain ⟨healthy, bytes⟩ := holds.getContent_eq read ordered clamped
  obtain ⟨size, sized, exact_⟩ := holds.contentLength_ok read
  have size_eq := exact_ fun empty => by simp [empty] at inside
  subst size_eq
  rw [get_header short sized]
  unfold Follows
  rw [denoted]
  dsimp only
  rw [actual, begins, count]
  exact ⟨_, rfl, rfl, healthy, bytes, rfl, rfl⟩

theorem follows_of_served (read : readable) (short : ¬spec.Overlong)
    (served : spec.Served content.length) :
    spec.Follows content
      (get (some (spec.header "bytes".toList)) (some (.resource resource))) := by
  cases spec with
  | fromTo first last ordered =>
      change first.value < content.length at served
      apply follows_of_bounds holds read short (if_pos served) rfl
      · omega
      · change clampEnd content.length last.value = _
        unfold clampEnd
        split <;> omega
      · exact .inr (Int.natCast_nonneg _)
  | from_ first =>
      change first.value < content.length at served
      apply follows_of_bounds holds read short (if_pos served) rfl
      · omega
      · change clampEnd content.length (-1) = _
        rw [clampEnd, if_pos (.inl (by decide))]
        omega
      · exact .inl rfl
  | suffix length =>
      obtain ⟨filled, whole⟩ := served
      have denoted : (suffix length).denotes content.length =
          some (0, content.length - 1) := by
        have start : content.length - min length.value content.length = 0 := by
          omega
        rw [denotes, if_pos ⟨by omega, filled⟩, start]
      apply follows_of_bounds holds read short denoted rfl (Nat.zero_le _)
      · change clampEnd content.length length.value = _
        rw [clampEnd, if_pos (.inr (by omega))]
        omega
      · exact .inr (Int.natCast_nonneg _)

/-- A range that denotes no byte is answered with a partial content. -/
theorem not_follows_of_nothing (read : readable) (short : ¬spec.Overlong)
    (nothing : spec.denotes content.length = none) :
    ¬spec.Follows content
      (get (some (spec.header "bytes".toList))
        (some (.resource resource))) := by
  intro follows
  obtain ⟨size, sized, _⟩ := holds.contentLength_ok read
  rw [get_header short sized] at follows
  unfold Follows at follows
  rw [nothing] at follows
  exact follows _ rfl rfl

/-- A suffix shorter than the file is answered with the beginning of the file,
and with one byte more. -/
theorem not_follows_of_short_suffix (read : readable) {length : Decimal}
    (short : ¬(suffix length).Overlong) (positive : 0 < length.value)
    (part : length.value < content.length) :
    ¬(suffix length).Follows content
      (get (some ((suffix length).header "bytes".toList))
        (some (.resource resource))) := by
  intro follows
  have denoted : (suffix length).denotes content.length =
      some (content.length - length.value, content.length - 1) := by
    rw [denotes, if_pos ⟨positive, by omega⟩, Nat.min_eq_left (by omega)]
  obtain ⟨size, sized, _⟩ := holds.contentLength_ok read
  rw [get_header short sized] at follows
  unfold Follows at follows
  rw [denoted] at follows
  obtain ⟨response, answered, _, _, bytes, _⟩ := follows
  cases answered
  have clamped : clampEnd content.length length.value = length.value :=
    clampEnd_inside (Int.natCast_nonneg _) (by omega)
  have beginning := (holds.getContent_eq read (Nat.zero_le _) clamped).2
  have counts := congrArg List.length (beginning.symm.trans bytes)
  rw [byteRange_length part, byteRange_length (by omega)] at counts
  omega

omit holds

/-- For a file of any kind, the handler follows the standard on a range that
it recognizes of a file that it can read exactly when the range begins inside
the file and is given by its positions, or its suffix is the whole file; and
otherwise exactly when the range denotes no byte. -/
theorem follows_iff (holds : resource.Holds content readable)
    (spec : ByteRangeSpec) {unit : List Char}
    (isUnit : unit.map Char.toLower = "bytes".toList) :
    spec.Follows content
        (get (some (spec.header unit)) (some (.resource resource))) ↔
      (readable ∧ unit = "bytes".toList ∧ ¬spec.Overlong ∧
          spec.Served content.length) ∨
        (¬(readable ∧ unit = "bytes".toList ∧ ¬spec.Overlong) ∧
          spec.denotes content.length = none) := by
  by_cases recognized : readable ∧ unit = "bytes".toList ∧ ¬spec.Overlong
  · obtain ⟨read, rfl, short⟩ := recognized
    have served_iff : spec.Follows content
        (get (some (spec.header "bytes".toList))
          (some (.resource resource))) ↔ spec.Served content.length := by
      refine ⟨fun follows => ?_, follows_of_served holds read short⟩
      by_contra unserved
      cases spec with
      | fromTo first last ordered =>
          exact not_follows_of_nothing holds read short (if_neg unserved)
            follows
      | from_ first =>
          exact not_follows_of_nothing holds read short (if_neg unserved)
            follows
      | suffix length =>
          by_cases satisfiable : 0 < length.value ∧ 0 < content.length
          · have part : length.value < content.length := by
              by_contra whole
              exact unserved ⟨satisfiable.2, by omega⟩
            exact not_follows_of_short_suffix holds read short satisfiable.1
              part follows
          · exact not_follows_of_nothing holds read short
              (if_neg satisfiable) follows
    rw [served_iff]
    constructor
    · intro served
      exact .inl ⟨read, rfl, short, served⟩
    · rintro (⟨_, _, _, served⟩ | ⟨unread, _⟩)
      · exact served
      · exact (unread ⟨read, rfl, short⟩).elim
  · rw [follows_of_whole (get_whole holds isUnit recognized)]
    constructor
    · intro nothing
      exact .inr ⟨recognized, nothing⟩
    · rintro (⟨read, same, short, _⟩ | ⟨_, nothing⟩)
      · exact (recognized ⟨read, same, short⟩).elim
      · exact nothing

/-- A file of five bytes without encryption. -/
def fiveBytes : WebdavResource := .bare 5 (serving [1, 2, 3, 4, 5]) 0

theorem fiveBytes_holds : fiveBytes.Holds [1, 2, 3, 4, 5] True :=
  .bare 5 0 (.inl rfl) (serving_serves [1, 2, 3, 4, 5])

def decimal (digit : Char) (digits : digit.isDigit = true) : Decimal :=
  ⟨[digit], by simp, by simpa using digits⟩

/-- `bytes=-2` of five bytes. -/
theorem suffix_not_served :
    ¬(suffix (decimal '2' (by decide))).Follows [1, 2, 3, 4, 5]
      (get (some "bytes=-2".toList) (some (.resource fiveBytes))) := by
  intro follows
  obtain ⟨response, answered, _, _, bytes, _⟩ := follows
  cases answered
  revert bytes
  decide

/-- `bytes=1-9` of five bytes. -/
theorem follows_past_the_end :
    (fromTo (decimal '1' (by decide)) (decimal '9' (by decide))
      (by decide)).Follows [1, 2, 3, 4, 5]
      (get (some "bytes=1-9".toList) (some (.resource fiveBytes))) :=
  (follows_iff fiveBytes_holds _ (by decide)).mpr
    (.inl ⟨trivial, rfl, by decide, by decide⟩)

end ByteRangeSpec

end Tgdcfs
