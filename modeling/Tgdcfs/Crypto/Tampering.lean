import Tgdcfs.Crypto.RoundTrip

/-!
# Reading tampered files

The stored bytes of an encrypted version are replaced by any others, perhaps
not for the first time.  The primitives are taken as ideal: what is stored
holds no forgery, that is, a header that verifies and a chunk that decrypts
were written by some version under the master key.  `Harmless` says when a
read is nevertheless safe.  It fails for a replacement that is passed through
as plaintext, for one that ends early at a chunk, and for one that is
decrypted as another version: nothing binds a chunk to the length of its file
or a header to its version, and the header cache keeps what it has found.
-/

namespace Tgdcfs

open EncryptingRepository

/-- The replacement holds no forgery: what authenticates in it was written
by a version of the archive. -/
structure Unforged {primitives : CryptoPrimitives}
    (lawful : primitives.Lawful) (master : Bytes)
    (archive : List WrittenVersion) (bytes : Bytes) : Prop where
  header : ∀ parsed, FileHeader.parse (bytes.take HEADER_SIZE) = .ok parsed →
    FileHeader.verify primitives (bytes.take HEADER_SIZE)
        (primitives.deriveFileKey master parsed.fileSalt) = .ok () →
      ∃ version ∈ archive,
        bytes.take HEADER_SIZE = version.rawHeader primitives master
  chunks : ∀ version ∈ archive, ∀ offset length index plaintext,
    index ≤ 0xFFFFFFFFFFFFFFFF →
    primitives.decrypt (version.fileKey primitives master)
        ((version.cipher lawful master).nonce index)
        ((bytes.drop offset).take length) = some plaintext →
      index * version.chunkSize < version.content.length ∧
        plaintext = version.plainChunk index ∧
        (bytes.drop offset).take length =
          primitives.encrypt (version.fileKey primitives master)
            ((version.cipher lawful master).nonce index) plaintext

/-- The outcome of a read of the plaintext `slice`: it raises, possibly after
a part of the slice, or it delivers the slice. -/
def Untampered (slice : Bytes) :
    Except CryptoError (ByteStream CryptoError) → Prop
  | .error _ => True
  | .ok stream =>
      stream.chunks.flatten <+: slice ∧
        (stream.error = none → stream.chunks.flatten = slice)

section Reading

variable {primitives : CryptoPrimitives} (lawful : primitives.Lawful)
  (master : Bytes)

/-- The bytes hold a chunk of the version at its place. -/
def WrittenVersion.IntactAt (version : WrittenVersion) (bytes : Bytes)
    (index : Nat) : Prop :=
  index * version.chunkSize < version.content.length ∧
    version.window lawful master bytes index =
      version.sealedChunk lawful master index

/-- The positions that a range asks for. -/
def Asked (begin_ end_ : Int) (position : Nat) : Prop :=
  begin_ ≤ position ∧ (end_ < 0 ∨ position ≤ end_)

/-- The bytes hold the chunks of the version from the beginning of the range
to the one of the position. -/
def WrittenVersion.IntactTo (version : WrittenVersion) (bytes : Bytes)
    (begin_ : Int) (position : Nat) : Prop :=
  ∀ index, begin_.toNat / version.chunkSize ≤ index →
    index ≤ position / version.chunkSize →
      version.IntactAt lawful master bytes index

/-- The bytes, whose size announces `total` bytes of content, can be read as
the version `other` in place of `version`: up to the first chunk that is not
intact the two agree, and when there is none, the announced bytes are all
that the range has. -/
structure WrittenVersion.StandsInFor (other version : WrittenVersion)
    (bytes : Bytes) (begin_ end_ : Int) (total : Nat) : Prop where
  agrees : ∀ position < total, Asked begin_ end_ position →
    other.IntactTo lawful master bytes begin_ position →
      other.content[position]? = version.content[position]?
  complete : (∀ position < total, Asked begin_ end_ position →
      other.IntactTo lawful master bytes begin_ position) →
    ∀ position < version.content.length, Asked begin_ end_ position →
      position < total

/-- The replacement does not look encrypted. -/
def Stripped (bytes : Bytes) : Prop :=
  bytes.length < MAGIC.length ∨ bytes.take MAGIC.length ≠ MAGIC

/-- The bytes are passed through: the cache has the file as a plaintext one,
or has nothing and they do not look encrypted. -/
def PassedThrough (cache : HeaderCache) (id : String) (bytes : Bytes) :
    Prop :=
  cache.lookup id = some none ∨ cache.lookup id = none ∧ Stripped bytes

/-- The bytes are decrypted as the version: the cache has its header, or has
nothing and they begin with it. -/
def WrittenVersion.DecryptedAs (primitives : CryptoPrimitives)
    (master : Bytes) (version : WrittenVersion) (cache : HeaderCache)
    (id : String) (bytes : Bytes) : Prop :=
  cache.lookup id =
      some (some (version.header, version.fileKey primitives master)) ∨
    cache.lookup id = none ∧ version.chunkSize ≤ CHUNK_SIZE_CEILING ∧
      bytes.take HEADER_SIZE = version.rawHeader primitives master

/-- When a replacement of the bytes of `version` does no harm to the read of
a range. -/
structure Harmless (archive : List WrittenVersion)
    (version : WrittenVersion) (bytes : Bytes) (begin_ end_ : Int)
    (cache : HeaderCache) (id : String) : Prop where
  empty : bytes = [] → ∀ position, Asked begin_ end_ position →
    version.content.length ≤ position
  plain : bytes ≠ [] → PassedThrough cache id bytes →
    clampEnd bytes.length end_ < begin_ ∨
      ∀ position, Asked begin_ end_ position →
        bytes[position]? = version.content[position]?
  decrypted : bytes ≠ [] → ∀ other ∈ archive,
    other.DecryptedAs primitives master cache id bytes →
      ∀ total, plaintextSize bytes.length other.chunkSize = .ok total →
        other.StandsInFor lawful master version bytes begin_ end_ total

end Reading

section Ideal

variable {primitives : CryptoPrimitives} {lawful : primitives.Lawful}
  {master : Bytes} {archive : List WrittenVersion}
  {version : WrittenVersion} {bytes : Bytes}

/-- Without forgeries the chunks that decrypt are the intact ones. -/
theorem Unforged.decrypts (unforged : Unforged lawful master archive bytes)
    (written : version ∈ archive) {index : Nat} {plaintext : Bytes}
    (decrypts : (version.cipher lawful master).decryptChunk primitives
      (version.window lawful master bytes index) index = .ok plaintext) :
    version.IntactAt lawful master bytes index ∧
      plaintext = version.plainChunk index := by
  unfold ChunkedAESGCM.decryptChunk at decrypts
  split at decrypts
  · cases decrypts
  · split at decrypts
    · cases decrypts
    · rename_i small
      split at decrypts
      · cases decrypts
      · rename_i nonceMatches
        have nonce_eq := not_not.mp nonceMatches
        split at decrypts
        · cases decrypts
        · rename_i opened found
          cases decrypts
          have rest : (version.window lawful master bytes index).drop
              NONCE_SIZE =
              (bytes.drop (HEADER_SIZE + index *
                (version.cipher lawful master).stride + NONCE_SIZE)).take
                ((version.cipher lawful master).stride - NONCE_SIZE) := by
            rw [WrittenVersion.window, DecryptPlan.window, List.drop_take,
              List.drop_drop]
          rw [rest] at found
          obtain ⟨inside, same, sealed⟩ := unforged.chunks version written _ _
            index plaintext (Nat.le_of_not_lt small) found
          refine ⟨⟨inside, ?_⟩, same⟩
          rw [← List.take_append_drop NONCE_SIZE
            (version.window lawful master bytes index), nonce_eq, rest,
            sealed, same]
          rfl

theorem WrittenVersion.IntactAt.decrypts {index : Nat}
    (intact : version.IntactAt lawful master bytes index) :
    version.Decrypts lawful master bytes index := by
  have bounded := version.indexed
  have inside := intact.1
  have small : index < MAX_CHUNKS := by
    by_contra large
    have reach := Nat.mul_le_mul_right version.chunkSize
      (Nat.le_of_not_lt large)
    omega
  refine ⟨version.plainChunk index, ?_⟩
  rw [intact.2]
  apply version.decryptChunk_sealed
  unfold MAX_CHUNKS at small
  omega

theorem Unforged.decrypts_iff
    (unforged : Unforged lawful master archive bytes)
    (written : version ∈ archive) {index : Nat} :
    version.Decrypts lawful master bytes index ↔
      version.IntactAt lawful master bytes index := by
  constructor
  · rintro ⟨plaintext, decrypts⟩
    exact (unforged.decrypts written decrypts).1
  · exact WrittenVersion.IntactAt.decrypts

theorem Unforged.genuine (unforged : Unforged lawful master archive bytes)
    (written : version ∈ archive) :
    version.GenuineIn lawful master bytes := by
  intro index plaintext decrypts
  obtain ⟨intact, same⟩ := unforged.decrypts written decrypts
  refine ⟨same, ?_⟩
  rw [intact.2, same, version.sealedChunk_length]

end Ideal

namespace EncryptingRepository

variable {primitives : CryptoPrimitives} {repo : EncryptingRepository}

variable {name : String}

theorem classify_some {buf key : Bytes} {header : FileHeader}
    (found : repo.classify primitives name buf = .ok (some (header, key))) :
    FileHeader.parse (buf.take HEADER_SIZE) = .ok header ∧
      FileHeader.verify primitives (buf.take HEADER_SIZE)
        (primitives.deriveFileKey repo.masterKey header.fileSalt) =
          .ok () := by
  unfold classify at found
  split at found
  · cases found
  · split at found
    · cases found
    · split at found
      · cases found
      · rename_i parsed parses
        dsimp only at found
        split at found
        · cases found
        · rename_i verifies
          cases found
          exact ⟨parses, verifies⟩

variable {bytes : Bytes}

theorem classify_stripped (stripped : Stripped bytes) :
    repo.classify primitives name (bytes.take HEADER_SIZE) = .ok none := by
  have small : min MAGIC.length HEADER_SIZE = MAGIC.length := by decide
  rw [classify, if_pos]
  rcases stripped with short | other
  · refine .inl ?_
    rw [List.length_take]
    omega
  · refine .inr ?_
    rw [List.take_take, small]
    exact other

theorem classify_not_none (marked : ¬Stripped bytes) :
    repo.classify primitives name (bytes.take HEADER_SIZE) ≠ .ok none := by
  have small : min MAGIC.length HEADER_SIZE = MAGIC.length := by decide
  intro found
  unfold classify at found
  split at found
  · rename_i stripped
    apply marked
    rcases stripped with short | other
    · refine .inl ?_
      rw [List.length_take] at short
      omega
    · refine .inr ?_
      rwa [List.take_take, small] at other
  · split at found
    · cases found
    · split at found
      · cases found
      · dsimp only at found
        split at found
        · cases found
        · cases found

/-- A file without an entry in the cache is taken for what its first bytes
say. -/
theorem detect_fresh {cache : HeaderCache} {id : String} {inner : InnerGet}
    (serves : Serves bytes inner) (fresh : cache.lookup id = none) :
    (repo.detect primitives cache id bytes.length name inner).2 =
      repo.classify primitives name (bytes.take HEADER_SIZE) := by
  by_cases long : MAGIC.length ≤ bytes.length
  · cases found : repo.classify primitives name
        (bytes.take HEADER_SIZE) with
    | error error => rw [detect_error serves fresh long found]
    | ok entry => rw [detect_ok serves fresh long found]
  · have short := Nat.lt_of_not_le long
    rw [classify_stripped (.inl short)]
    unfold detect
    rw [fresh]
    dsimp only
    rw [if_pos short]

theorem get_plain {cache : HeaderCache} {id : String} {size : Nat}
    {begin_ end_ : Int} {inner : InnerGet} (filled : size ≠ 0)
    (detected : (repo.detect primitives cache id size name inner).2 =
      .ok none) :
    (repo.get primitives cache id size name begin_ end_ inner).2 =
      inner begin_ end_ := by
  unfold get
  rw [if_neg filled]
  generalize repo.detect primitives cache id size name inner = result
    at detected
  obtain ⟨next, found⟩ := result
  cases detected
  rfl

theorem clampEnd_lt (total : Nat) (end_ : Int) :
    clampEnd total end_ < total := by
  unfold clampEnd
  split <;> omega

theorem le_clampEnd_iff {total position : Nat} {end_ : Int} :
    (position : Int) ≤ clampEnd total end_ ↔
      position < total ∧ (end_ < 0 ∨ position ≤ end_) := by
  unfold clampEnd
  split <;> omega

/-- The bytes of a range are those at the positions it asks for. -/
theorem plaintextRange_getElem? (content : Bytes) (first place : Nat)
    (end_ : Int) : (plaintextRange content first end_)[place]? =
      if end_ < 0 ∨ ((first + place : Nat) : Int) ≤ end_ then
        content[first + place]?
      else none := by
  have bound := @le_clampEnd_iff content.length (first + place) end_
  rw [plaintextRange_eq, List.getElem?_take, List.getElem?_drop,
    Int.toNat_natCast]
  by_cases inside : first + place < content.length
  · split <;> split
    · rfl
    · omega
    · omega
    · rfl
  · rw [List.getElem?_eq_none (Nat.le_of_not_lt inside)]
    simp

theorem plaintextRange_eq_nil_iff {content : Bytes} {first : Nat}
    {end_ : Int} : plaintextRange content first end_ = [] ↔
      ∀ position, Asked first end_ position →
        content.length ≤ position := by
  constructor
  · intro nothing position asked
    have there := plaintextRange_getElem? content first (position - first)
      end_
    have place : first + (position - first) = position := by
      have later := asked.1
      omega
    rw [nothing, place, if_pos asked.2] at there
    exact List.getElem?_eq_none_iff.mp there.symm
  · intro behind
    apply List.ext_getElem?
    intro place
    rw [plaintextRange_getElem?]
    split
    · rename_i inside
      exact List.getElem?_eq_none
        (behind _ ⟨by omega, inside⟩)
    · rfl

theorem untampered_empty {slice : Bytes} :
    Untampered slice (.ok ⟨[], none⟩) ↔ slice = [] := by
  constructor
  · rintro ⟨_, whole⟩
    exact (whole rfl).symm
  · rintro rfl
    exact ⟨List.nil_prefix, fun _ => rfl⟩

/-- Bytes that are passed through are the content of the range. -/
theorem untampered_plain {content : Bytes} {begin_ end_ : Int}
    {inner : InnerGet} (serves : Serves bytes inner) (natural : 0 ≤ begin_) :
    Untampered (plaintextRange content begin_ end_) (inner begin_ end_) ↔
      clampEnd bytes.length end_ < begin_ ∨
        ∀ position, Asked begin_ end_ position →
          bytes[position]? = content[position]? := by
  have range := serves begin_ end_
  by_cases outside : clampEnd bytes.length end_ < begin_
  · rw [if_pos (.inr outside)] at range
    obtain ⟨error, refused⟩ := range
    rw [refused]
    exact ⟨fun _ => .inl outside, fun _ => trivial⟩
  · rw [if_neg (by omega)] at range
    obtain ⟨stream, answered, healthy, whole⟩ := range
    obtain ⟨first, rfl⟩ := Int.eq_ofNat_of_zero_le natural
    obtain ⟨last, clamped⟩ := Int.eq_ofNat_of_zero_le
      (show 0 ≤ clampEnd bytes.length end_ by omega)
    rw [clamped, Int.toNat_natCast, Int.toNat_natCast,
      ← plaintextRange_inside clamped] at whole
    rw [answered]
    constructor
    · rintro ⟨_, same⟩
      right
      intro position asked
      have equal := congrArg (·[position - first]?)
        (whole.symm.trans (same healthy))
      have place : first + (position - first) = position := by
        have later := asked.1
        omega
      simpa only [plaintextRange_getElem?, place, if_pos asked.2] using equal
    · rintro (absurd | equal)
      · exact (outside absurd).elim
      · have same : plaintextRange bytes first end_ =
            plaintextRange content first end_ := by
          apply List.ext_getElem?
          intro place
          rw [plaintextRange_getElem?, plaintextRange_getElem?]
          split
          · rename_i inside
            exact equal _ ⟨by omega, inside⟩
          · rfl
        rw [← same, ← whole]
        exact ⟨List.prefix_rfl, fun _ => rfl⟩

section Encrypted

variable (lawful : primitives.Lawful) (repo : EncryptingRepository)
  {archive : List WrittenVersion} {version : WrittenVersion} {bytes : Bytes}
include lawful

theorem getEncrypted_inconsistent {begin_ end_ : Int} (inner : InnerGet)
    {error : CryptoError}
    (sized : plaintextSize bytes.length version.chunkSize = .error error) :
    getEncrypted primitives version.header
        (version.fileKey primitives repo.masterKey) bytes.length begin_ end_
        inner = .error error := by
  unfold getEncrypted
  rw [version.new_cipher lawful repo.masterKey]
  dsimp only
  rw [show (version.cipher lawful repo.masterKey).chunkSize =
    version.chunkSize from rfl, sized]

/-- An intact chunk has all the bytes that the size announces for it. -/
theorem intactAt_holds {position total : Nat}
    (intact : version.IntactAt lawful repo.masterKey bytes
      (position / version.chunkSize))
    (sized : plaintextSize bytes.length version.chunkSize = .ok total)
    (inside : position < total) : position < version.content.length := by
  have below := Nat.lt_div_mul_add (a := position) version.chunkSize_pos
  have lengths := congrArg List.length intact.2
  have begins := intact.1
  rw [version.sealedChunk_length lawful, WrittenVersion.plainChunk,
    WrittenVersion.window, DecryptPlan.window, List.length_take,
    List.length_drop, List.length_take, List.length_drop] at lengths
  generalize position / version.chunkSize = index at below lengths begins
  change min (version.chunkSize + CHUNK_OVERHEAD) (bytes.length -
    (HEADER_SIZE + index * (version.chunkSize + CHUNK_OVERHEAD))) = _
    at lengths
  have header : HEADER_SIZE = 60 := rfl
  have overhead : CHUNK_OVERHEAD = 28 := rfl
  by_contra behind
  rcases plaintextSize_ok sized with ⟨_, none⟩ |
    ⟨full, tail, size, short, ends⟩
  · omega
  · have same : full = index := by
      rcases Nat.lt_trichotomy full index with before | same | beyond
      · have reach := Nat.mul_le_mul_right
          (version.chunkSize + CHUNK_OVERHEAD) (Nat.succ_le_of_lt before)
        rw [Nat.succ_mul] at reach
        omega
      · exact same
      · have reach := Nat.mul_le_mul_right
          (version.chunkSize + CHUNK_OVERHEAD) (Nat.succ_le_of_lt beyond)
        rw [Nat.succ_mul] at reach
        omega
    subst same
    omega

theorem intactTo_of_places {first count position : Nat}
    (intact : ∀ place < count, version.IntactAt lawful repo.masterKey bytes
      (first / version.chunkSize + place))
    (reached : position / version.chunkSize <
      first / version.chunkSize + count) :
    version.IntactTo lawful repo.masterKey bytes first position := by
  intro index low high
  rw [Int.toNat_natCast] at low
  have there := intact (index - first / version.chunkSize) (by omega)
  rwa [Nat.add_sub_cancel' low] at there

section Streams

variable {other : WrittenVersion} {first last total count : Nat} {end_ : Int}
  {stream : ByteStream CryptoError}

/-- What comes out of the intact chunks begins the slice when they stand in
for the version. -/
theorem standsInFor_begins
    (stands : other.StandsInFor lawful repo.masterKey version bytes first
      end_ total)
    (ordered : first ≤ last) (clamped : clampEnd total end_ = last)
    (intact : ∀ place < count, other.IntactAt lawful repo.masterKey bytes
      (first / other.chunkSize + place)) :
    other.beginning first last count <+:
      plaintextRange version.content first end_ := by
  rw [List.prefix_iff_getElem?]
  intro place inside
  have reach := inside
  rw [WrittenVersion.beginning, List.length_take] at reach
  have asked := le_clampEnd_iff.mp
    (show ((first + place : Nat) : Int) ≤ clampEnd total end_ by omega)
  have chunk : (first + place) / other.chunkSize <
      first / other.chunkSize + count := by
    have floor := Nat.div_add_mod' first other.chunkSize
    rw [Nat.div_lt_iff_lt_mul other.chunkSize_pos, Nat.add_mul]
    omega
  have same := stands.agrees (first + place) asked.1
    ⟨by omega, asked.2⟩ (intactTo_of_places lawful repo intact chunk)
  rw [plaintextRange_getElem?, if_pos asked.2, ← same,
    ← List.getElem?_eq_getElem inside, WrittenVersion.beginning,
    List.getElem?_take_of_lt (by omega), List.getElem?_drop]

variable (sized : plaintextSize bytes.length other.chunkSize = .ok total)
  (ordered : first ≤ last) (clamped : clampEnd total end_ = last)
  (least : count ≤ other.chunksOf first last)
  (intact : ∀ place < count, other.IntactAt lawful repo.masterKey bytes
    (first / other.chunkSize + place))
  (out : stream.chunks.flatten = other.beginning first last count)
  (complete : stream.error = none ↔ count = other.chunksOf first last)
include sized ordered clamped intact out complete

/-- A stream of the intact chunks is untampered when they stand in for the
version. -/
theorem standsInFor_untampered
    (stands : other.StandsInFor lawful repo.masterKey version bytes first
      end_ total) :
    Untampered (plaintextRange version.content first end_) (.ok stream) := by
  have begins := standsInFor_begins lawful repo stands ordered clamped
    intact
  refine ⟨by rwa [out], ?_⟩
  intro finished
  rw [out]
  apply begins.eq_of_length_le
  apply Nat.le_of_not_lt
  intro more
  have all := complete.mp finished
  have chunks := Nat.div_le_div_right (c := other.chunkSize) ordered
  have opened : ∀ position < total, Asked first end_ position →
      other.IntactTo lawful repo.masterKey bytes first position := by
    intro position inside asked
    have low := le_clampEnd_iff.mpr ⟨inside, asked.2⟩
    have before := Nat.div_le_div_right (c := other.chunkSize)
      (show position ≤ last by omega)
    apply intactTo_of_places lawful repo intact
    rw [all, WrittenVersion.chunksOf]
    omega
  have wanted := le_clampEnd_iff.mp clamped.ge
  have holds := intactAt_holds lawful repo
    (opened last wanted.1 ⟨by omega, wanted.2⟩ _ (by simpa using chunks)
      le_rfl) sized wanted.1
  rw [all, other.beginning_all ordered, byteRange, List.length_take,
    List.length_drop] at more
  -- The byte behind the announced ones would have been announced, too.
  have beyond := plaintextRange_getElem? version.content first
    (last + 1 - first) end_
  rw [Nat.add_sub_cancel' (by omega),
    List.getElem?_eq_getElem (by omega)] at beyond
  split at beyond
  · rename_i further
    have inside := (List.getElem?_eq_some_iff.mp beyond.symm).1
    have announced := stands.complete opened (last + 1) inside
      ⟨by omega, further⟩
    have reached := le_clampEnd_iff.mpr ⟨announced, further⟩
    omega
  · cases beyond

omit intact in
include least in
/-- The intact chunks of an untampered stream stand in for the version. -/
theorem standsInFor_of_untampered
    (failing : count < other.chunksOf first last →
      ¬other.IntactAt lawful repo.masterKey bytes
        (first / other.chunkSize + count))
    (untampered : Untampered (plaintextRange version.content first end_)
      (.ok stream)) :
    other.StandsInFor lawful repo.masterKey version bytes first end_
      total := by
  obtain ⟨begins, ends⟩ := untampered
  rw [out, List.prefix_iff_getElem?] at begins
  have chunks := Nat.div_le_div_right (c := other.chunkSize) ordered
  constructor
  · intro position inside asked opened
    have low := le_clampEnd_iff.mpr ⟨inside, asked.2⟩
    have later := asked.1
    have before := Nat.div_le_div_right (c := other.chunkSize)
      (show position ≤ last by omega)
    have from_ := Nat.div_le_div_right (c := other.chunkSize)
      (show first ≤ position by omega)
    have reached : position / other.chunkSize <
        first / other.chunkSize + count := by
      by_contra beyond
      apply failing
      · rw [WrittenVersion.chunksOf]
        omega
      · apply opened
        · rw [Int.toNat_natCast]
          exact Nat.le_add_right _ _
        · exact Nat.le_of_not_lt beyond
    have holds := intactAt_holds lawful repo
      (opened _ (by simpa using from_) le_rfl) sized inside
    rw [Nat.div_lt_iff_lt_mul other.chunkSize_pos, Nat.add_mul] at reached
    have division := Nat.div_add_mod' first other.chunkSize
    have short : position - first < (other.beginning first last
        count).length := by
      rw [WrittenVersion.beginning, List.length_take, List.length_drop]
      omega
    have same := begins (position - first) short
    have place : first + (position - first) = position := by omega
    rw [plaintextRange_getElem?, place, if_pos asked.2,
      ← List.getElem?_eq_getElem short, WrittenVersion.beginning,
      List.getElem?_take_of_lt (by omega), List.getElem?_drop, place] at same
    exact same.symm
  · intro opened position inside asked
    have wanted := le_clampEnd_iff.mp clamped.ge
    have later := asked.1
    have all : count = other.chunksOf first last := by
      apply Nat.le_antisymm least
      by_contra early
      apply failing (Nat.lt_of_not_le early)
      apply opened last wanted.1 ⟨by omega, wanted.2⟩
      · rw [Int.toNat_natCast]
        exact Nat.le_add_right _ _
      · rw [WrittenVersion.chunksOf] at early
        omega
    have same := congrArg (·[position - first]?)
      (out.symm.trans (ends (complete.mpr all)))
    have place : first + (position - first) = position := by omega
    simp only [plaintextRange_getElem?, place, if_pos asked.2] at same
    rw [all, other.beginning_all ordered,
      List.getElem?_eq_getElem inside] at same
    have short := (List.getElem?_eq_some_iff.mp same).1
    rw [byteRange, List.length_take] at short
    omega

end Streams

/-- Bytes that are read as a version deliver the range of another one exactly
when they stand in for it. -/
theorem untampered_getEncrypted {other : WrittenVersion}
    (unforged : Unforged lawful repo.masterKey archive bytes)
    (written : other ∈ archive) {inner : InnerGet}
    (serves : Serves bytes inner) {begin_ end_ : Int}
    (natural : 0 ≤ begin_) :
    Untampered (plaintextRange version.content begin_ end_)
        (getEncrypted primitives other.header
          (other.fileKey primitives repo.masterKey) bytes.length begin_ end_
          inner) ↔
      ∀ total, plaintextSize bytes.length other.chunkSize = .ok total →
        other.StandsInFor lawful repo.masterKey version bytes begin_ end_
          total := by
  obtain ⟨first, rfl⟩ := Int.eq_ofNat_of_zero_le natural
  cases sized : plaintextSize bytes.length other.chunkSize with
  | error error =>
      rw [getEncrypted_inconsistent lawful repo inner sized]
      exact ⟨fun _ _ absurd => (nomatch absurd), fun _ => trivial⟩
  | ok total =>
      have below := clampEnd_lt total end_
      have only : (∀ announced,
          (.ok total : Except CryptoError Nat) = .ok announced →
          other.StandsInFor lawful repo.masterKey version bytes first end_
            announced) ↔ other.StandsInFor lawful repo.masterKey version
              bytes first end_ total := by
        constructor
        · intro stands
          exact stands total rfl
        · intro stands announced same
          cases same
          exact stands
      rw [only]
      by_cases outside : clampEnd total end_ < first ∨ (total : Int) ≤ first
      · rw [getEncrypted_outside lawful repo sized inner outside,
          untampered_empty, plaintextRange_eq_nil_iff]
        have none : ∀ position < total, ¬Asked first end_ position := by
          intro position inside asked
          have reached := le_clampEnd_iff.mpr ⟨inside, asked.2⟩
          have later := asked.1
          omega
        constructor
        · intro nothing
          refine ⟨fun position inside asked => (none position inside
            asked).elim, fun _ position inside asked => ?_⟩
          exact (Nat.not_lt.mpr (nothing position asked) inside).elim
        · intro stands position asked
          by_contra inside
          exact none position (stands.complete
            (fun place announced wanted => (none place announced
              wanted).elim) position (Nat.lt_of_not_le inside) asked) asked
      · obtain ⟨last, clamped⟩ := Int.eq_ofNat_of_zero_le
          (show 0 ≤ clampEnd total end_ by omega)
        have ordered : first ≤ last := by omega
        have inside : last < total := by omega
        obtain ⟨stream, opened, healthy, whole⟩ :=
          getEncrypted_inside lawful repo sized serves ordered inside clamped
        obtain ⟨count, least, decrypts, failing, out, complete⟩ :=
          other.decryptingStream_reads lawful repo.masterKey
            (unforged.genuine written) sized ordered inside whole healthy
        rw [opened]
        have intact : ∀ place < count,
            other.IntactAt lawful repo.masterKey bytes
              (first / other.chunkSize + place) := fun place smaller =>
          (unforged.decrypts_iff written).mp (decrypts place smaller)
        have broken : count < other.chunksOf first last →
            ¬other.IntactAt lawful repo.masterKey bytes
              (first / other.chunkSize + count) := fun early there =>
          failing early there.decrypts
        exact ⟨standsInFor_of_untampered lawful repo sized ordered clamped
            least out complete broken,
          standsInFor_untampered lawful repo sized ordered clamped intact
            out complete⟩

end Encrypted

/-- The header caches that calls lead to while the stored bytes change in
between, without a forgery. -/
inductive ReachedOver (lawful : primitives.Lawful)
    (repo : EncryptingRepository) (archive : List WrittenVersion) :
    HeaderCache → Prop where
  | empty : ReachedOver lawful repo archive .empty
  | get {cache : HeaderCache} (earlier : ReachedOver lawful repo archive cache)
      (id name : String) (begin_ end_ : Int) (bytes : Bytes)
      (unforged : Unforged lawful repo.masterKey archive bytes)
      (inner : InnerGet) (serves : Serves bytes inner) :
      ReachedOver lawful repo archive (repo.get primitives cache id
        bytes.length name begin_ end_ inner).1
  | contentLength {cache : HeaderCache}
      (earlier : ReachedOver lawful repo archive cache) (id : String)
      (bytes : Bytes) (unforged : Unforged lawful repo.masterKey archive bytes)
      (inner : InnerGet) (serves : Serves bytes inner) :
      ReachedOver lawful repo archive (repo.contentLength primitives cache id
        bytes.length inner).1

/-- The entries of a cache are headers of the archive, or say that a file is
plaintext. -/
def Archived (primitives : CryptoPrimitives) (master : Bytes)
    (archive : List WrittenVersion) (cache : HeaderCache) : Prop :=
  ∀ id entry, cache.lookup id = some (some entry) →
    ∃ other ∈ archive,
      entry = (other.header, other.fileKey primitives master)

section Replaced

variable {lawful : primitives.Lawful} {archive : List WrittenVersion}
  {version other : WrittenVersion} {bytes : Bytes} {cache : HeaderCache}
  {id name : String} {begin_ end_ : Int} {inner : InnerGet}

theorem classify_archived
    (unforged : Unforged lawful repo.masterKey archive bytes)
    {entry : FileHeader × Bytes}
    (found : repo.classify primitives name (bytes.take HEADER_SIZE) =
      .ok (some entry)) :
    ∃ other ∈ archive, other.chunkSize ≤ CHUNK_SIZE_CEILING ∧
      bytes.take HEADER_SIZE = other.rawHeader primitives repo.masterKey ∧
      entry = (other.header, other.fileKey primitives repo.masterKey) := by
  obtain ⟨parses, verifies⟩ := classify_some found
  rw [List.take_take, Nat.min_self] at parses verifies
  obtain ⟨other, written, headed⟩ := unforged.header _ parses verifies
  rw [headed] at found
  by_cases accepted : other.chunkSize ≤ CHUNK_SIZE_CEILING
  · rw [classify_written lawful repo name accepted] at found
    cases found
    exact ⟨other, written, accepted, headed, rfl⟩
  · rw [classify_refused lawful repo name (Nat.lt_of_not_le accepted)]
      at found
    cases found

theorem Archived.detect (archived : Archived primitives repo.masterKey
      archive cache)
    (unforged : Unforged lawful repo.masterKey archive bytes) (id : String)
    (name : String) (serves : Serves bytes inner) :
    Archived primitives repo.masterKey archive
      (repo.detect primitives cache id bytes.length name inner).1 := by
  cases fresh : cache.lookup id with
  | some entry =>
      unfold EncryptingRepository.detect
      rw [fresh]
      exact archived
  | none =>
      by_cases long : MAGIC.length ≤ bytes.length
      · cases found : repo.classify primitives name
            (bytes.take HEADER_SIZE) with
        | error error =>
            rw [detect_error serves fresh long found]
            exact archived
        | ok entry =>
            rw [detect_ok serves fresh long found]
            intro other cached inside
            rcases lookup_put inside with ⟨_, rfl⟩ | earlier
            · obtain ⟨version, written, _, _, same⟩ :=
                classify_archived unforged found
              exact ⟨version, written, same⟩
            · exact archived other cached earlier
      · unfold EncryptingRepository.detect
        rw [fresh]
        dsimp only
        rw [if_pos (Nat.lt_of_not_le long)]
        intro other cached inside
        rcases lookup_put inside with ⟨_, absurd⟩ | earlier
        · cases absurd
        · exact archived other cached earlier

theorem ReachedOver.archived (reached : ReachedOver lawful repo archive
      cache) : Archived primitives repo.masterKey archive cache := by
  induction reached with
  | empty =>
      intro id entry absurd
      cases absurd
  | get _ id name begin_ end_ bytes unforged inner serves archived =>
      by_cases nothing : bytes.length = 0
      · rw [EncryptingRepository.get, if_pos nothing]
        exact archived
      · rw [get_cache nothing]
        exact archived.detect unforged id name serves
  | contentLength _ id bytes unforged inner serves archived =>
      by_cases nothing : bytes.length = 0
      · rw [EncryptingRepository.contentLength, if_pos nothing]
        exact archived
      · rw [contentLength_cache nothing]
        exact archived.detect unforged id "" serves

/-- What a read takes the bytes for: a plaintext file, a version of the
archive, or nothing that it accepts. -/
theorem detect_cases (reached : ReachedOver lawful repo archive cache)
    (unforged : Unforged lawful repo.masterKey archive bytes)
    (serves : Serves bytes inner) :
    (∃ error, (repo.detect primitives cache id bytes.length name inner).2 =
      .error error) ∨
    (PassedThrough cache id bytes ∧
      (repo.detect primitives cache id bytes.length name inner).2 =
        .ok none) ∨
    ∃ other ∈ archive,
      other.DecryptedAs primitives repo.masterKey cache id bytes ∧
      (repo.detect primitives cache id bytes.length name inner).2 =
        .ok (some (other.header,
          other.fileKey primitives repo.masterKey)) := by
  cases cached : cache.lookup id with
  | some entry =>
      have detected : (repo.detect primitives cache id bytes.length name
          inner).2 = .ok entry := by
        unfold detect
        rw [cached]
      cases entry with
      | none => exact .inr (.inl ⟨.inl cached, detected⟩)
      | some entry =>
          obtain ⟨other, written, rfl⟩ := reached.archived id entry cached
          exact .inr (.inr ⟨other, written, .inl cached, detected⟩)
  | none =>
      rw [detect_fresh serves cached]
      by_cases stripped : Stripped bytes
      · exact .inr (.inl ⟨.inr ⟨cached, stripped⟩,
          classify_stripped stripped⟩)
      · cases found : repo.classify primitives name
            (bytes.take HEADER_SIZE) with
        | error error => exact .inl ⟨error, rfl⟩
        | ok entry =>
            cases entry with
            | none => exact (classify_not_none stripped found).elim
            | some entry =>
                obtain ⟨other, written, accepted, headed, rfl⟩ :=
                  classify_archived unforged found
                exact .inr (.inr ⟨other, written,
                  .inr ⟨cached, accepted, headed⟩, rfl⟩)

theorem detect_passedThrough (serves : Serves bytes inner)
    (passed : PassedThrough cache id bytes) :
    (repo.detect primitives cache id bytes.length name inner).2 =
      .ok none := by
  rcases passed with cached | ⟨fresh, stripped⟩
  · unfold detect
    rw [cached]
  · rw [detect_fresh serves fresh, classify_stripped stripped]

theorem detect_decryptedAs (lawful : primitives.Lawful)
    (serves : Serves bytes inner)
    (decrypted : other.DecryptedAs primitives repo.masterKey cache id
      bytes) :
    (repo.detect primitives cache id bytes.length name inner).2 =
      .ok (some (other.header,
        other.fileKey primitives repo.masterKey)) := by
  rcases decrypted with cached | ⟨fresh, accepted, headed⟩
  · unfold detect
    rw [cached]
  · rw [detect_fresh serves fresh, headed,
      classify_written lawful repo name accepted]

theorem get_nothing {slice : Bytes} :
    Untampered slice (repo.get primitives cache id ([] : Bytes).length name
      begin_ end_ inner).2 ↔ slice = [] := by
  rw [List.length_nil, get, if_pos rfl]
  exact untampered_empty

/-- A read of replaced bytes raises, delivers a part of the slice and raises,
or delivers the slice, if and only if the replacement is harmless. -/
theorem replaced_read_iff
    (unforged : Unforged lawful repo.masterKey archive bytes)
    (serves : Serves bytes inner) (natural : 0 ≤ begin_)
    (reached : ReachedOver lawful repo archive cache) :
    Untampered (plaintextRange version.content begin_ end_)
        (repo.get primitives cache id bytes.length name begin_ end_
          inner).2 ↔
      Harmless lawful repo.masterKey archive version bytes begin_ end_
        cache id := by
  obtain ⟨first, rfl⟩ := Int.eq_ofNat_of_zero_le natural
  by_cases nothing : bytes = []
  · subst nothing
    rw [get_nothing, plaintextRange_eq_nil_iff]
    exact ⟨fun behind => ⟨fun _ => behind, fun absurd => (absurd rfl).elim,
      fun absurd => (absurd rfl).elim⟩, fun harmless => harmless.empty rfl⟩
  have stored : bytes.length ≠ 0 := fun none =>
    nothing (List.length_eq_zero_iff.mp none)
  constructor
  · intro untampered
    refine ⟨fun absurd => (nothing absurd).elim, ?_, ?_⟩
    · intro _ passed
      rw [get_plain stored (detect_passedThrough serves passed)] at untampered
      exact (untampered_plain serves natural).mp untampered
    · intro _ other written decrypted
      rw [get_detected stored (detect_decryptedAs lawful serves decrypted)]
        at untampered
      exact (untampered_getEncrypted lawful repo unforged written serves
        natural).mp untampered
  · intro harmless
    rcases detect_cases reached unforged serves with ⟨error, refused⟩ |
      ⟨passed, detected⟩ | ⟨other, written, decrypted, detected⟩
    · rw [get_failed stored refused]
      trivial
    · rw [get_plain stored detected]
      exact (untampered_plain serves natural).mpr
        (harmless.plain nothing passed)
    · rw [get_detected stored detected]
      exact (untampered_getEncrypted lawful repo unforged written serves
        natural).mpr (harmless.decrypted nothing other written decrypted)

end Replaced

theorem unforged_short {master : Bytes} {archive : List WrittenVersion}
    (short : bytes.length < TAG_SIZE) :
    Unforged plainPrimitives_lawful master archive bytes := by
  constructor
  · intro parsed parses
    have small : (bytes.take HEADER_SIZE).length < HEADER_SIZE := by
      have sizes : TAG_SIZE < HEADER_SIZE := by decide
      rw [List.length_take]
      omega
    rw [FileHeader.parse, if_pos small] at parses
    cases parses
  · intro version _ offset length index plaintext _ decrypts
    have small : ((bytes.drop offset).take length).length < TAG_SIZE := by
      rw [List.length_take, List.length_drop]
      omega
    generalize (bytes.drop offset).take length = sealed at decrypts small
    simp only [plainPrimitives] at decrypts
    split at decrypts
    · rename_i tagged
      have lengths := congrArg List.length tagged
      rw [packBytes_length, List.length_drop] at lengths
      omega
    · cases decrypts

/-- The version with the content `[1]`, in chunks of two. -/
def oneByteVersion : WrittenVersion :=
  { chunkSize := 2
    salt := List.replicate 32 5
    content := [1]
    chunkSize_pos := by decide
    chunkSize_fits := by decide
    salt_length := List.length_replicate ..
    indexed := by decide }

/-- A file cut down to its magic number is refused. -/
theorem replaced_read_iff_cut :
    Untampered (plaintextRange oneByteVersion.content 0 (-1))
      ((plainRepository 2).get plainPrimitives .empty "message"
        MAGIC.length "name" 0 (-1) (serving MAGIC)).2 := by
  have unforged : Unforged plainPrimitives_lawful
      (plainRepository 2).masterKey [oneByteVersion] MAGIC :=
    unforged_short (by decide)
  refine (replaced_read_iff unforged (serving_serves MAGIC) le_rfl
    .empty).mpr ⟨nofun, ?_, ?_⟩
  · rintro _ (absurd | ⟨_, short | other⟩)
    · cases absurd
    · exact (Nat.lt_irrefl _ short).elim
    · exact (other rfl).elim
  · rintro _ other _ (absurd | ⟨_, _, headed⟩)
    · cases absurd
    · have lengths := congrArg List.length headed
      rw [other.rawHeader_length plainPrimitives_lawful] at lengths
      cases lengths

/-- The stored bytes replaced by a byte without the magic number: the read
completes with that byte. -/
theorem stripped_file_served :
    Unforged plainPrimitives_lawful (plainRepository 2).masterKey
        [oneByteVersion] [9] ∧
      ¬Untampered (plaintextRange oneByteVersion.content 0 (-1))
        ((plainRepository 2).get plainPrimitives .empty
          "message" 1 "name" 0 (-1) (serving [9])).2 := by
  refine ⟨unforged_short (by decide), ?_⟩
  have served : ((plainRepository 2).get plainPrimitives .empty
      "message" 1 "name" 0 (-1) (serving [9])).2 = .ok ⟨[[9]], none⟩ := rfl
  rw [served]
  rintro ⟨_, same⟩
  exact absurd (same rfl) (by decide)

end EncryptingRepository

end Tgdcfs
