import Tgdcfs.Backends.OverflowStore

/-!
# Documents that stay

A document is carried by the call that uploaded it until one version points to
it.  The store deletes what it found in `overflowOf` when an edit began, after
that edit took effect; the document belongs to an older version of the same
message then, and it belongs to no other one.
-/

namespace Tgdcfs

open Lib

theorem overflowMarker_toList (document : Int) :
    (overflowMarker document).toList =
      OVERFLOW_PREFIX.toList ++ (toString document).toList :=
  String.toList_append

theorem isMarker_overflowMarker (document : Int) :
    isMarker (overflowMarker document) = true := by
  rw [isMarker, overflowMarker_toList]
  exact List.isPrefixOf_iff_prefix.mpr (List.prefix_append _ _)

theorem markerOf_overflowMarker {document : Int}
    (valid : IsMessageId document) (id : Int) :
    markerOf ⟨id, overflowMarker document, none⟩ = some document := by
  obtain ⟨value, rfl⟩ := Int.eq_ofNat_of_zero_le (Int.le_of_lt valid.1)
  have small : value < 10 ^ 10 := by
    have bound := valid.2
    omega
  have short : value < 10 ^ maxDigits :=
    Nat.lt_of_lt_of_le small (Nat.pow_le_pow_right (by omega) (by decide))
  have behind : (overflowMarker (value : Int)).toList.drop
      OVERFLOW_PREFIX.length = (toString (value : Int)).toList := by
    rw [overflowMarker_toList]
    exact List.drop_left
  unfold markerOf
  simp only [Option.isSome_none, isMarker_overflowMarker, Bool.not_true,
    Bool.or_self, Bool.false_eq_true, if_false]
  rw [behind, parseInt_toString short]

theorem markerOf_plain {message : MessageResp}
    (plain : isMarker message.text = false) : markerOf message = none := by
  simp [markerOf, plain]

theorem markerOf_document {message : MessageResp}
    (attached : message.document.isSome) : markerOf message = none := by
  simp [markerOf, attached]

/-- What a call sends points to the document that it uploaded. -/
theorem markerOf_sent {call : TextCall} (plain : isMarker call.text = false)
    {overflow : Option Int}
    (valid : ∀ document, overflow = some document → IsMessageId document)
    (id : Int) : markerOf ⟨id, call.sent overflow, none⟩ = overflow := by
  cases overflow with
  | none => exact markerOf_plain plain
  | some document => exact markerOf_overflowMarker (valid document rfl) id

namespace Channel

variable {channel : Channel}

def Points (channel : Channel) (id : Int) (version : Nat) (document : Int) :
    Prop :=
  ∃ message, (channel.versions id)[version]? = some message ∧
    markerOf message = some document

/-- A version that is not the current one points to the document. -/
def Superseded (channel : Channel) (document : Int) : Prop :=
  ∃ id version, channel.Points id version document ∧
    version + 1 < (channel.versions id).length

/-- There are versions, all of them texts. -/
def HoldsText (channel : Channel) (id : Int) : Prop :=
  channel.versions id ≠ [] ∧
    ∀ message ∈ channel.versions id, message.document = none

def HoldsDocument (channel : Channel) (id : Int) : Prop :=
  channel.versions id ≠ [] ∧
    ∀ message ∈ channel.versions id, message.document.isSome = true

variable {id : Int}

theorem HoldsText.not_document (text : channel.HoldsText id) :
    ¬channel.HoldsDocument id := by
  intro document
  obtain ⟨message, member⟩ := List.exists_mem_of_ne_nil _ text.1
  have attached := document.2 message member
  rw [text.2 message member] at attached
  cases attached

theorem append_length (id : Int) (message : MessageResp) (other : Int) :
    ((channel.append id message).versions other).length =
      (channel.versions other).length + if other = id then 1 else 0 := by
  by_cases same : other = id
  · subst same
    simp [append]
  · simp [append, same]

theorem append_last (id : Int) (message : MessageResp) :
    ((channel.append id message).versions id)[
      (channel.versions id).length]? = some message := by
  simp [append]

theorem Points.append {version : Nat} {document : Int}
    (points : channel.Points id version document) (other : Int)
    (message : MessageResp) :
    (channel.append other message).Points id version document := by
  obtain ⟨found, listed, marks⟩ := points
  exact ⟨found, (channel.append_grows other message).versions _ _ _ listed,
    marks⟩

variable {other : Int} {message : MessageResp}

theorem points_append {version : Nat} {document : Int}
    (points : (channel.append other message).Points id version document) :
    channel.Points id version document ∨
      id = other ∧ version = (channel.versions other).length ∧
        markerOf message = some document := by
  obtain ⟨found, listed, marks⟩ := points
  rcases append_version listed with old | ⟨same, last, rfl⟩
  · exact .inl ⟨found, old, marks⟩
  · exact .inr ⟨same, last, marks⟩

theorem Superseded.append {document : Int}
    (superseded : channel.Superseded document) (other : Int)
    (message : MessageResp) :
    (channel.append other message).Superseded document := by
  obtain ⟨id, version, points, below⟩ := superseded
  refine ⟨id, version, points.append other message, ?_⟩
  rw [append_length]
  omega

theorem mem_append {found : MessageResp}
    (member : found ∈ (channel.append other message).versions id) :
    found ∈ channel.versions id ∨ id = other ∧ found = message := by
  by_cases same : id = other
  · subst same
    simp only [Channel.append, Function.update_self, List.mem_append,
      List.mem_singleton] at member
    exact member.imp_right fun last => ⟨rfl, last⟩
  · simp only [Channel.append, Function.update_of_ne same] at member
    exact .inl member

theorem append_ne_nil (used : channel.versions id ≠ [] ∨ id = other) :
    (channel.append other message).versions id ≠ [] := by
  intro empty
  have length := channel.append_length other message id
  rw [empty, List.length_nil] at length
  rcases used with before | rfl
  · have positive := List.length_pos_iff.mpr before
    omega
  · rw [if_pos rfl] at length
    omega

theorem HoldsText.append (text : channel.HoldsText id)
    (same : id = other → message.document = none) :
    (channel.append other message).HoldsText id := by
  refine ⟨append_ne_nil (.inl text.1), ?_⟩
  intro found member
  rcases mem_append member with before | ⟨here, rfl⟩
  · exact text.2 found before
  · exact same here

theorem HoldsDocument.append (document : channel.HoldsDocument id)
    (same : id = other → message.document.isSome = true) :
    (channel.append other message).HoldsDocument id := by
  refine ⟨append_ne_nil (.inl document.1), ?_⟩
  intro found member
  rcases mem_append member with before | ⟨here, rfl⟩
  · exact document.2 found before
  · exact same here

end Channel

end Tgdcfs
