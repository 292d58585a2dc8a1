import Mathlib.Data.List.Infix
import Tgdcfs.Backends.MessageCache
import Tgdcfs.Core.PrefetchingChain
import Tgdcfs.Core.RangeMap
import Tgdcfs.Upload.Message

/-!
# Resumed downloads of the Telethon client

`TelethonAPI.download_file` asks `iter_download` for the document from an
aligned offset, drops what lies before the range and cuts off what lies behind
it.  When the file reference expires in the middle, the document is resolved
again and a second pass resumes where the first one stopped.  What arrives is
the range, or a beginning of it followed by an exception.
-/

namespace Tgdcfs

/-- What a download raises. -/
inductive TelethonError where
  | invalidRange (begin_ end_ : Nat)
  | unDownloadableMessage (messageId : Int)
  | fileReferenceExpired
  | ended (messageId : Int) (served total begin_ end_ : Nat)
  | raised (message : String)
  deriving DecidableEq, Repr

structure DownloadFileReq where
  chat : Int
  messageId : Int
  begin_ : Nat
  end_ : Nat

structure DownloadFileResp where
  chunks : ByteStream TelethonError
  size : Int

/-- The services a download rests on: the answer to a message lookup and one
pass of `iter_download` over a document from an offset.  The flag tells the
calls behind the refresh from those before it; they need not answer alike. -/
structure TelethonClient where
  requestSize : Nat
  getMessages : Bool → Int → Except TelethonError (Option MessageResp)
  iterDownload : Bool → Document → Nat → ByteStream TelethonError

namespace TelethonClient

/-- `_document_for`. -/
def documentFor (client : TelethonClient) (messageId : Int)
    (refresh : Bool) : Except TelethonError Document :=
  match client.getMessages refresh messageId with
  | .error failure => .error failure
  | .ok message =>
      match message.bind MessageResp.document with
      | none => .error (.unDownloadableMessage messageId)
      | some document => .ok document

/-- The loop over the chunks of one pass: what it yields and what is still
missing behind it.  The loop is left when nothing is. -/
def serveChunks : Nat → Nat → List Bytes → List Bytes × Nat
  | _, rest, [] => ([], rest)
  | skip, rest, chunk :: chunks =>
      if skip ≠ 0 ∧ chunk.length ≤ skip then
        serveChunks (skip - chunk.length) rest chunks
      else
        let chunk := (chunk.drop skip).take rest
        let rest := rest - chunk.length
        if rest = 0 then ([chunk], 0)
        else
          let (later, left) := serveChunks 0 rest chunks
          (chunk :: later, left)

/-- One pass from `offset` on: what it yields, what is missing behind it, and
the exception it ends with.  An exception behind the last byte is not met. -/
def pass (client : TelethonClient) (refreshed : Bool) (document : Document)
    (offset rest : Nat) : List Bytes × Nat × Option TelethonError :=
  let aligned := offset - offset % client.requestSize
  let stream := client.iterDownload refreshed document aligned
  let (chunks, left) := serveChunks (offset - aligned) rest stream.chunks
  (chunks, left, if left = 0 then none else stream.error)

/-- A download that is short of bytes raises. -/
def finish (request : DownloadFileReq) (left : Nat) : Option TelethonError :=
  if left = 0 then none
  else
    let total := request.end_ + 1 - request.begin_
    some (.ended request.messageId (total - left) total request.begin_
      request.end_)

/-- The `chunks` generator.  The reference is refreshed once. -/
def chunks (client : TelethonClient) (request : DownloadFileReq)
    (document : Document) : ByteStream TelethonError :=
  if request.end_ < request.begin_ then
    ⟨[], some (.invalidRange request.begin_ request.end_)⟩
  else
    let total := request.end_ + 1 - request.begin_
    match client.pass false document request.begin_ total with
    | (first, left, none) => ⟨first, finish request left⟩
    | (first, left, some .fileReferenceExpired) =>
        match client.documentFor request.messageId true with
        | .error failure => ⟨first, some failure⟩
        | .ok document =>
            match client.pass true document
              (request.begin_ + (total - left)) left with
            | (second, left, none) => ⟨first ++ second, finish request left⟩
            | (second, _, some failure) => ⟨first ++ second, some failure⟩
    | (first, _, some failure) => ⟨first, some failure⟩

def downloadFile (client : TelethonClient) (request : DownloadFileReq) :
    Except TelethonError DownloadFileResp :=
  (client.documentFor request.messageId false).map fun document =>
    { chunks := client.chunks request document
      size := (request.end_ : Int) - request.begin_ + 1 }

/-- Every pass delivers the bytes of the document from its aligned offset on,
in chunks of any lengths, and may stop or raise anywhere. -/
def Delivers (client : TelethonClient) (content : Bytes) : Prop :=
  ∀ refreshed document offset, client.requestSize ∣ offset →
    (client.iterDownload refreshed document offset).chunks.flatten <+:
      content.drop offset

/-- What a stream may hand out of `wanted` bytes from `content` on: all of
them, or fewer and an exception. -/
def Exact (content : Bytes) (wanted : Nat)
    (stream : ByteStream TelethonError) : Prop :=
  stream.chunks.flatten <+: content.take wanted ∧
    (stream.error = none → stream.chunks.flatten.length = wanted) ∧
      (stream.error ≠ none → stream.chunks.flatten.length < wanted)

/-- The loop yields the bytes behind `skip`, up to `rest` of them. -/
theorem serveChunks_spec (skip rest : Nat) (stream : List Bytes) :
    (serveChunks skip rest stream).1.flatten =
        (stream.flatten.drop skip).take rest ∧
      (serveChunks skip rest stream).2 =
        rest - (serveChunks skip rest stream).1.flatten.length := by
  induction stream generalizing skip rest with
  | nil => simp [serveChunks]
  | cons chunk stream induction =>
      unfold serveChunks
      split
      · rename_i short
        obtain ⟨bytes, left⟩ := induction (skip - chunk.length) rest
        refine ⟨?_, left⟩
        rw [bytes, List.flatten_cons, List.drop_append,
          List.drop_eq_nil_of_le short.2, List.nil_append]
      · rename_i reached
        have inside : skip = 0 ∨ skip < chunk.length := by
          by_contra outside
          push Not at outside
          exact reached outside
        have split_ : ((chunk :: stream).flatten.drop skip).take rest =
            (chunk.drop skip).take rest ++
              stream.flatten.take (rest - (chunk.drop skip).length) := by
          have front : skip - chunk.length = 0 := by omega
          rw [List.flatten_cons, List.drop_append, List.take_append, front,
            List.drop_zero]
        have served : rest - ((chunk.drop skip).take rest).length =
            rest - (chunk.drop skip).length := by
          rw [List.length_take]
          omega
        dsimp only
        split
        · rename_i full
          rw [served] at full
          rw [split_, full]
          constructor
          · simp
          · rw [List.flatten_cons, List.flatten_nil, List.append_nil, served,
              full]
        · obtain ⟨bytes, left⟩ := induction 0
            (rest - ((chunk.drop skip).take rest).length)
          rw [List.drop_zero, served] at bytes
          rw [split_]
          constructor
          · rw [List.flatten_cons, served, bytes]
          · rw [left, List.flatten_cons, List.length_append]
            omega

variable {client : TelethonClient} {content : Bytes}

/-- A pass hands out the next bytes of the document and knows how many are
missing; an exception is met only when some are. -/
theorem pass_spec (delivers : client.Delivers content) (refreshed : Bool)
    (document : Document) (offset rest : Nat) :
    (client.pass refreshed document offset rest).1.flatten <+:
        (content.drop offset).take rest ∧
      (client.pass refreshed document offset rest).2.1 =
        rest -
          (client.pass refreshed document offset rest).1.flatten.length ∧
      ((client.pass refreshed document offset rest).2.2 ≠ none →
        (client.pass refreshed document offset rest).2.1 ≠ 0) := by
  have spot : offset - offset % client.requestSize +
      (offset - (offset - offset % client.requestSize)) = offset := by
    have below := Nat.mod_le offset client.requestSize
    omega
  obtain ⟨bytes, left⟩ := serveChunks_spec
    (offset - (offset - offset % client.requestSize)) rest
    (client.iterDownload refreshed document
      (offset - offset % client.requestSize)).chunks
  refine ⟨?_, left, ?_⟩
  · have arrives := List.IsPrefix.drop (delivers refreshed document
      (offset - offset % client.requestSize)
        (Nat.dvd_sub_mod offset))
        (offset - (offset - offset % client.requestSize))
    rw [List.drop_drop, spot] at arrives
    change (serveChunks _ rest _).1.flatten <+: _
    rw [bytes]
    exact arrives.take rest
  · intro raised empty
    apply raised
    exact if_pos empty

/-- The bytes of a second pass continue those of the first. -/
theorem prefix_append_resumed {first second : Bytes} {offset total : Nat}
    (front : first <+: (content.drop offset).take total)
    (back : second <+: (content.drop (offset + first.length)).take
      (total - first.length)) :
    first ++ second <+: (content.drop offset).take total := by
  have whole : (content.drop offset).take total =
      first ++ (content.drop (offset + first.length)).take
        (total - first.length) := by
    have taken := List.prefix_iff_eq_take.mp front
    have within : first.length ≤ total :=
      front.length_le.trans (List.length_take_le _ _)
    rw [List.take_take, Nat.min_eq_left within] at taken
    conv_lhs => rw [← Nat.add_sub_of_le within, List.take_add, ← taken]
    rw [List.drop_drop]
  rw [whole]
  exact (List.prefix_append_right_inj first).mpr back

theorem exact_finish {request : DownloadFileReq} {chunks : List Bytes}
    {left : Nat} (start : Bytes)
    (bytes : chunks.flatten <+:
      start.take (request.end_ + 1 - request.begin_))
    (missing : left =
      request.end_ + 1 - request.begin_ - chunks.flatten.length) :
    Exact start (request.end_ + 1 - request.begin_)
      ⟨chunks, finish request left⟩ := by
  have within := bytes.length_le.trans (List.length_take_le _ _)
  refine ⟨bytes, ?_, ?_⟩
  · intro done
    change finish request left = none at done
    change chunks.flatten.length = _
    by_cases complete : left = 0
    · omega
    · rw [finish, if_neg complete] at done
      cases done
  · intro raised
    change finish request left ≠ none at raised
    change chunks.flatten.length < _
    by_cases complete : left = 0
    · exact absurd (if_pos complete) raised
    · omega

theorem exact_raised {start : Bytes} {wanted : Nat} {chunks : List Bytes}
    {failure : TelethonError} (bytes : chunks.flatten <+: start.take wanted)
    (short : chunks.flatten.length < wanted) :
    Exact start wanted ⟨chunks, some failure⟩ :=
  ⟨bytes, nofun, fun _ => short⟩

theorem chunks_exact (delivers : client.Delivers content)
    {request : DownloadFileReq} (ordered : request.begin_ ≤ request.end_)
    (document : Document) :
    Exact (content.drop request.begin_) (request.end_ + 1 - request.begin_)
      (client.chunks request document) := by
  obtain ⟨bytes, missing, early⟩ := pass_spec delivers false document
    request.begin_ (request.end_ + 1 - request.begin_)
  unfold chunks
  rw [if_neg (Nat.not_lt.mpr ordered)]
  dsimp only
  generalize client.pass false document request.begin_
    (request.end_ + 1 - request.begin_) = served at bytes missing early
  obtain ⟨first, left, ending⟩ := served
  dsimp only at bytes missing early ⊢
  cases ending with
  | none => exact exact_finish _ bytes missing
  | some failure =>
      have incomplete := early nofun
      have short : first.flatten.length <
          request.end_ + 1 - request.begin_ := by omega
      cases failure with
      | fileReferenceExpired =>
          dsimp only
          cases client.documentFor request.messageId true with
          | error failure => exact exact_raised bytes short
          | ok renewed =>
              dsimp only
              obtain ⟨more, lacking, later⟩ := pass_spec delivers true renewed
                (request.begin_ +
                  (request.end_ + 1 - request.begin_ - left)) left
              generalize client.pass true renewed _ left = resumed
                at more lacking later
              obtain ⟨second, rest, stopped⟩ := resumed
              dsimp only at more lacking later ⊢
              have served : request.end_ + 1 - request.begin_ - left =
                  first.flatten.length := by omega
              have joined : (first ++ second).flatten <+:
                  (content.drop request.begin_).take
                    (request.end_ + 1 - request.begin_) := by
                rw [List.flatten_append]
                rw [served, missing] at more
                exact prefix_append_resumed bytes more
              have count : (first ++ second).flatten.length =
                  first.flatten.length + second.flatten.length := by
                rw [List.flatten_append, List.length_append]
              cases stopped with
              | none => exact exact_finish _ joined (by omega)
              | some failure =>
                  have unfinished := later nofun
                  exact exact_raised joined (by omega)
      | invalidRange begin_ end_ => exact exact_raised bytes short
      | unDownloadableMessage messageId => exact exact_raised bytes short
      | ended messageId served total begin_ end_ =>
          exact exact_raised bytes short
      | raised message => exact exact_raised bytes short

/-- The chunks of a download are the bytes of the range, or fewer of them and
then an exception. -/
theorem downloadFile_exact (delivers : client.Delivers content)
    {request : DownloadFileReq} (ordered : request.begin_ ≤ request.end_)
    {response : DownloadFileResp}
    (answered : client.downloadFile request = .ok response) :
    (response.chunks.error = none →
      response.chunks.chunks.flatten =
          byteRange content request.begin_ request.end_ ∧
        (response.chunks.chunks.flatten.length : Int) = response.size) ∧
    (response.chunks.error ≠ none →
      response.chunks.chunks.flatten <+:
          byteRange content request.begin_ request.end_ ∧
        (response.chunks.chunks.flatten.length : Int) < response.size) := by
  unfold downloadFile at answered
  cases found : client.documentFor request.messageId false with
  | error failure =>
      rw [found] at answered
      cases answered
  | ok document =>
      rw [found] at answered
      cases answered
      obtain ⟨bytes, complete, short⟩ :=
        chunks_exact delivers ordered document
      dsimp only
      constructor
      · intro done
        have whole := complete done
        constructor
        · apply bytes.eq_of_length_le
          rw [whole]
          exact List.length_take_le _ _
        · omega
      · intro raised
        have fewer := short raised
        exact ⟨bytes, by omega⟩

/-- The reference expires behind three bytes of the document. -/
def expiringClient (content : Bytes) : TelethonClient :=
  { requestSize := 2
    getMessages := fun _ messageId =>
      .ok (some ⟨messageId, "", some ⟨5, 1, 2, [3], none⟩⟩)
    iterDownload := fun refreshed _ offset =>
      if refreshed then ⟨[content.drop offset], none⟩
      else ⟨[(content.drop offset).take 3], some .fileReferenceExpired⟩ }

theorem expiringClient_delivers (content : Bytes) :
    (expiringClient content).Delivers content := by
  intro refreshed document offset aligned
  cases refreshed with
  | false => simpa [expiringClient] using List.take_prefix 3 _
  | true => simp [expiringClient]

theorem downloadFile_resumes :
    ∃ response,
      (expiringClient [1, 2, 3, 4, 5]).downloadFile ⟨0, 7, 1, 3⟩ =
          .ok response ∧
        response.chunks.chunks = [[2, 3], [4]] ∧
        response.chunks.chunks.flatten = byteRange [1, 2, 3, 4, 5] 1 3 :=
  ⟨_, rfl, by decide,
    ((downloadFile_exact (expiringClient_delivers [1, 2, 3, 4, 5])
      (by decide) rfl).1 (by decide)).1⟩

end TelethonClient

end Tgdcfs
