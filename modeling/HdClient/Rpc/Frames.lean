-- SUMMARY: The documented grammar of what a client sends: connection header, connection context and request frames; the header of a response.
import HdClient.Base.Wire
import HdClient.Base.Word

/-! # The outbound grammar

A connection starts with a fixed header and a connection context, and goes on
with one frame a request. Context and frames are preceded by their length in
four bytes; the two parts of a frame are preceded by theirs as varints. -/

namespace HdClient

/-- A request as the server sees it: the fields of its header, and its body. -/
abbrev FrameFormat : Format UInt8 (List Wire.Record × List UInt8) :=
  Format.framed Word.Be32 <| Format.seq
    (Format.framed Varint.Encodes Wire.Message) (Format.framed Varint.Encodes Format.raw)

/-- `"hrpc"`, the version, the authentication method and the serialization type. -/
def connectionHeader : List UInt8 := [104, 114, 112, 99, 7, 80, 0]

/-- Everything a client sends: the fields of the context, then the requests. -/
abbrev StreamFormat :
    Format UInt8 (Unit × List Wire.Record × List (List Wire.Record × List UInt8)) :=
  Format.seq (Format.only connectionHeader) <| Format.seq
    (Format.framed Word.Be32 Wire.Message) (Format.Star FrameFormat)

theorem frameFormat_unambiguous : FrameFormat.Unambiguous := by
  refine Format.framed_unambiguous Word.be32_unambiguous (Format.seq_functional ?_ ?_)
  · exact Format.framed_unambiguous Varint.encodes_unambiguous Wire.message_functional
  · exact (Format.framed_unambiguous Varint.encodes_unambiguous Format.raw_functional).functional

theorem FrameFormat.ne_nil {v : List Wire.Record × List UInt8} {bs : List UInt8}
    (h : FrameFormat v bs) : bs ≠ [] :=
  Format.framed_ne_nil Word.not_be32_nil h

/-- A server can read a stream in one way at most. -/
theorem streamFormat_functional : StreamFormat.Functional := by
  refine Format.seq_functional (Format.only_unambiguous _) (Format.seq_functional ?_ ?_)
  · exact Format.framed_unambiguous Word.be32_unambiguous Wire.message_functional
  · exact Format.star_functional frameFormat_unambiguous fun _ _ h => FrameFormat.ne_nil h

/-! ## What this client sends -/

/-- The fields of a request header: the protobuf engine, a final payload, and the call. -/
def requestHeader (caller_id : BitVec 32) : List Wire.Record :=
  [⟨1, .varint 2, by decide, by decide⟩, ⟨2, .varint 0, by decide, by decide⟩,
    ⟨3, .varint (caller_id.setWidth 64), by decide, by decide⟩]

/-- What follows the length of a frame. -/
def frameBody (caller_id : BitVec 32) (payload : List UInt8) : List UInt8 :=
  (Varint.encode (Wire.encode (requestHeader caller_id)).length ++
      Wire.encode (requestHeader caller_id)) ++
    (Varint.encode payload.length ++ payload)

def frame (caller_id : BitVec 32) (payload : List UInt8) : List UInt8 :=
  Word.be32 (frameBody caller_id payload).length ++ frameBody caller_id payload

/-- The fields of a connection context. -/
def connectionContext (protocol : List UInt8) : List Wire.Record :=
  [⟨3, .lend protocol, by decide, by decide⟩]

/-- The fields of a request: the method, its argument, the protocol and its version. -/
def hadoopRequest (method request protocol : List UInt8) : List Wire.Record :=
  [⟨1, .lend method, by decide, by decide⟩, ⟨2, .lend request, by decide, by decide⟩,
    ⟨3, .lend protocol, by decide, by decide⟩, ⟨4, .varint 1, by decide, by decide⟩]

/-- The fields of a response header that a client reads. -/
def responseHeader (callId status : BitVec 32) : List Wire.Record :=
  [⟨1, .varint (callId.setWidth 64), by decide, by decide⟩,
    ⟨2, .varint (status.setWidth 64), by decide, by decide⟩]

theorem frame_format {caller_id : BitVec 32} {payload : List UInt8}
    (hfit : (frameBody caller_id payload).length < 2 ^ 32) :
    FrameFormat (requestHeader caller_id, payload) (frame caller_id payload) := by
  refine Format.framed_intro ⟨hfit, rfl⟩ (Format.seq_intro ?_ ?_)
  · exact Format.framed_intro (Varint.encodes_encode _) (Wire.message_encode _)
  · exact Format.framed_intro (Varint.encodes_encode _) rfl

theorem requestHeader_rpcKind (caller_id : BitVec 32) :
    Wire.SetsOnce (requestHeader caller_id) 1 (.varint 2) := rfl

theorem requestHeader_rpcOp (caller_id : BitVec 32) :
    Wire.SetsOnce (requestHeader caller_id) 2 (.varint 0) := rfl

theorem requestHeader_callId (caller_id : BitVec 32) :
    Wire.SetsOnce (requestHeader caller_id) 3 (.varint (caller_id.setWidth 64)) := rfl

theorem connectionContext_protocol (protocol : List UInt8) :
    Wire.SetsOnce (connectionContext protocol) 3 (.lend protocol) := rfl

/-- A context is longer than the name in it. -/
theorem lt_encode_connectionContext (p : List UInt8) :
    p.length < (Wire.encode (connectionContext p)).length := by
  have htag : 0 < (Varint.encode (Wire.Record.tag ⟨3, .lend p, by decide, by decide⟩)).length :=
    Varint.encode_length_pos _
  simp only [connectionContext, Wire.encode_cons, Wire.encode_nil, Wire.Record.encode,
    Wire.Payload.encode, List.length_append]
  omega

theorem encode_connectionContext_mono {p q : List UInt8} (h : q.length ≤ p.length) :
    (Wire.encode (connectionContext q)).length ≤ (Wire.encode (connectionContext p)).length := by
  have hvint := Varint.encode_length_mono h
  simp only [connectionContext, Wire.encode_cons, Wire.encode_nil, Wire.Record.encode,
    Wire.Payload.encode, Wire.Record.tag, Wire.Payload.wiretype, List.length_append]
  omega

private theorem encode_number_record (number : ℕ) {v : BitVec 64} (hpos : 0 < number)
    (hnum : number < 16) : (Wire.Record.encode ⟨number, .varint v, hpos, by omega⟩) =
      UInt8.ofNat (number * 8) :: Varint.encode v.toNat := by
  have htag : Varint.encode (Wire.Record.tag ⟨number, .varint v, hpos, by omega⟩) =
      [UInt8.ofNat (number * 8)] :=
    Varint.encode_of_lt (by simp only [Wire.Record.tag, Wire.Payload.wiretype]; omega)
  rw [Wire.Record.encode, htag]
  rfl

/-- The bytes of a request header. -/
theorem encode_requestHeader (caller_id : BitVec 32) :
    Wire.encode (requestHeader caller_id) =
      [8, 2, 16, 0, 24] ++ Varint.encode caller_id.toNat := by
  have hwide : (caller_id.setWidth 64).toNat = caller_id.toNat := by
    rw [BitVec.toNat_setWidth]
    exact Nat.mod_eq_of_lt (Nat.lt_trans caller_id.isLt (by decide))
  have h2 : Varint.encode (BitVec.toNat (2 : BitVec 64)) = [2] := by decide
  have h0 : Varint.encode (BitVec.toNat (0 : BitVec 64)) = [0] := by decide
  simp only [requestHeader, Wire.encode_cons, Wire.encode_nil,
    encode_number_record 1 (by decide) (by decide),
    encode_number_record 2 (by decide) (by decide),
    encode_number_record 3 (by decide) (by decide), hwide, h2, h0]
  simp

/-- The header of a request takes ten bytes at most. -/
theorem requestHeader_length (caller_id : BitVec 32) :
    (Wire.encode (requestHeader caller_id)).length ≤ 10 := by
  have hle : (Varint.encode caller_id.toNat).length ≤ 5 :=
    Varint.encode_length_le (Nat.lt_trans caller_id.isLt (by decide))
  rw [encode_requestHeader, List.length_append]
  simp only [List.length_cons, List.length_nil]
  omega

end HdClient
