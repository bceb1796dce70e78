-- SUMMARY: What the receiving calls make of a response, for every way in which its bytes arrive.
import HdClient.Client.Arrivals
import HdClient.Pbc.Reading
import HdClient.Rpc.Schema

/-! # Receiving -/

namespace HdClient

open Pbc Conn

/-! ## Response headers -/

/-- The library reads these three numbers from a response header. -/
structure Says (env : Env) (header : List UInt8) (callId status version : BitVec 32) : Prop where
  read : ∃ m, rmessageNew env (lit "hadoop.common.RpcResponseHeaderProto") header = some (.ok m) ∧
    rmessageInteger env m (lit "callId") 0 = some callId ∧
    rmessageInteger env m (lit "status") 0 = some status ∧
    rmessageInteger env m (lit "serverIpcVersionNum") 0 = some version

/-- The fields of a response header: the id and the status once each, and any others. -/
structure HeaderFields (rs : List Wire.Record) (callId status : BitVec 32) : Prop where
  callId_once : Wire.SetsOnce rs 1 (.varint (callId.setWidth 64))
  status_once : Wire.SetsOnce rs 2 (.varint (status.setWidth 64))

/-- `RpcResponseHeaderProto` -/
def responseHeaderFields : List Declaration :=
  [⟨lit "callId", 1, .required, .uint32⟩, ⟨lit "status", 2, .required, .enum⟩,
    ⟨lit "serverIpcVersionNum", 3, .optional, .uint32⟩]

/-- The number that is read for a field of a response header. -/
def headerWord (name : CStr) (default : BitVec 32) (ps : List Wire.Piece) : BitVec 32 :=
  ((found (fileUnder responseHeaderFields) name (Wire.spots 0 ps)).map word).getD default

/-- The reading of a header, in its pieces. -/
private theorem header_read {env : Env} (h : ResponseHeaderType env) :
    ∃ i m, getMessage env (lit "hadoop.common.RpcResponseHeaderProto") = some (some i) ∧
      env.messages[i]? = some m ∧ m.Flat ∧ m.Small ∧ m.filing = fileUnder responseHeaderFields ∧
      (∀ d ∈ responseHeaderFields, m.DeclaresAs d) ∧ ∀ {ps : List Wire.Piece},
        (Wire.written ps).length < 2 ^ 32 → Read env (rmessageNewAux env (Wire.written ps).length) m ps
          (rmessageNewAux env ((Wire.written ps).length + 1) (some i) (Wire.written ps)) := by
  obtain ⟨m, ⟨i, hget, hi⟩, hcall, hstatus, hversion, hids⟩ := h.registered
  have hall : ∀ d ∈ responseHeaderFields, m.DeclaresAs d := by
    simp [responseHeaderFields, hcall, hstatus, hversion]
  have hflat : m.Flat := flat_of_declares hall hids (by decide) (by simp [responseHeaderFields])
    (by simp [responseHeaderFields, PType.isNumber])
  exact ⟨i, m, hget, hi, hflat, small_of_declares hall hids (by decide),
    filing_of_declares hall hids, hall, fun hfit => rmessageNewAux_read hi hflat.toSimple hfit _⟩

/-- The library reads three numbers from every header without groups that it can take in. -/
theorem says_found {env : Env} (h : ResponseHeaderType env) :
    ∃ m f₁ f₂ d₁ d₂, Registered env (lit "hadoop.common.RpcResponseHeaderProto") m ∧ m.Flat ∧
      m.filing = fileUnder responseHeaderFields ∧
      m.NumberField 1 f₁ d₁ ∧ f₁.name = lit "callId" ∧
      m.NumberField 2 f₂ d₂ ∧ f₂.name = lit "status" ∧
      ∀ {ps : List Wire.Piece}, ¬ Wire.HasGroup ps → (Wire.written ps).length ≤ heapMax →
        (Wire.spots 0 ps).length ≤ recordsMax →
        ∃ version, Says env (Wire.written ps) (headerWord (lit "callId") d₁ ps)
          (headerWord (lit "status") d₂ ps) version := by
  obtain ⟨i, m, hget, hi, hflat, hsmall, hfiling, hall, hread⟩ := header_read h
  simp only [responseHeaderFields, List.forall_mem_cons] at hall
  obtain ⟨hcall, hstatus, hversion, -⟩ := hall
  obtain ⟨f₁, d₁, hf₁, hname₁⟩ := hcall.numberField (by decide) (by decide)
  obtain ⟨f₂, d₂, hf₂, hname₂⟩ := hstatus.numberField (by decide) (by decide)
  obtain ⟨f₃, d₃, hf₃, hname₃⟩ := hversion.numberField (by decide) (by decide)
  refine ⟨m, f₁, f₂, d₁, d₂, ⟨i, hget, hi⟩, hflat, hfiling, hf₁, hname₁, hf₂, hname₂,
    fun {ps} hno hheap hrecords => ?_⟩
  have hfit : (Wire.written ps).length < 2 ^ 32 := Nat.lt_of_le_of_lt hheap (by decide)
  have hend := hread hfit
  generalize hres : rmessageNewAux env ((Wire.written ps).length + 1) (some i) (Wire.written ps) =
    res at hend
  cases hend with
  | group hgroup => exact absurd hgroup hno
  | spoilt _ has hbad =>
      rw [← has.length_eq] at hbad
      rcases hbad with hmany | ⟨a, -, hbad⟩
      · omega
      · exact absurd (hflat.reads _ _ a) hbad
  | filed _ has _ _ hmsg =>
      have h₁ := hmsg.integer_found hflat hsmall has hf₁
      have h₂ := hmsg.integer_found hflat hsmall has hf₂
      have h₃ := hmsg.integer_found hflat hsmall has hf₃
      rw [hname₁, hfiling] at h₁
      rw [hname₂, hfiling] at h₂
      rw [hname₃] at h₃
      exact ⟨_, ⟨_, rmessageNew_of_aux hget hheap hres, h₁, h₂, h₃⟩⟩

/-- The library reads three numbers from every header that it can take in. -/
theorem says_message {env : Env} (h : ResponseHeaderType env) :
    ∃ d₁ d₂, ∀ {rs : List Wire.Record} {header : List UInt8}, Wire.ShortMessage rs header →
      Readable rs header →
      ∃ callId status version, Says env header callId status version ∧
        ReadFrom rs 1 d₁ callId ∧ ReadFrom rs 2 d₂ status := by
  obtain ⟨m, f₁, f₂, d₁, d₂, -, hflat, hfiling, hf₁, hname₁, hf₂, hname₂, hsays⟩ := says_found h
  refine ⟨d₁, d₂, fun {rs header} hrs hreadable => ?_⟩
  obtain ⟨ps, rfl, hno, rfl⟩ := hrs.pieces
  have hlen := congrArg List.length (Wire.map_record_spots 0 ps)
  rw [List.length_map] at hlen
  obtain ⟨version, hsaid⟩ := hsays hno hreadable.1 (hlen ▸ hreadable.2)
  have h₁ := readFrom_found hflat.toSimple (Wire.spots 0 ps) hf₁.byId d₁
  have h₂ := readFrom_found hflat.toSimple (Wire.spots 0 ps) hf₂.byId d₂
  rw [Wire.map_record_spots, hfiling, hname₁] at h₁
  rw [Wire.map_record_spots, hfiling, hname₂] at h₂
  exact ⟨_, _, version, hsaid, h₁, h₂⟩

/-- What the library cannot take in it does not read, and with a group it fails to. -/
theorem header_unread {env : Env} (h : ResponseHeaderType env) {ps : List Wire.Piece}
    (hfit : (Wire.written ps).length < 2 ^ 32) :
    (heapMax < (Wire.written ps).length →
      rmessageNew env (lit "hadoop.common.RpcResponseHeaderProto") (Wire.written ps) = none) ∧
    ((Wire.written ps).length ≤ heapMax → Wire.HasGroup ps →
      rmessageNew env (lit "hadoop.common.RpcResponseHeaderProto") (Wire.written ps) =
        some (.error .decodeContext)) ∧
    (¬ Wire.HasGroup ps → recordsMax < (Wire.spots 0 ps).length →
      rmessageNew env (lit "hadoop.common.RpcResponseHeaderProto") (Wire.written ps) = none) := by
  obtain ⟨i, m, hget, hi, hflat, -, -, -, hread⟩ := header_read h
  have hend := hread hfit
  generalize hres : rmessageNewAux env ((Wire.written ps).length + 1) (some i) (Wire.written ps) =
    res at hend
  refine ⟨rmessageNew_heap hget, fun hheap hgroup => ?_, fun hno hmany => ?_⟩
  · cases hend with
    | group _ => simp [rmessageNew, hget, Nat.not_lt.mpr hheap, hres]
    | spoilt hno => exact absurd hgroup hno
    | filed hno => exact absurd hgroup hno
  · cases hend with
    | group hgroup => exact absurd hgroup hno
    | spoilt _ _ _ => simp [rmessageNew, hget, hres]
    | filed _ has hle =>
        have hlen := has.length_eq
        omega

theorem says_unreadable {env : Env} (h : ResponseHeaderType env) {rs : List Wire.Record}
    {header : List UInt8} (hrs : Wire.ShortMessage rs header) (hfit : header.length < 2 ^ 32)
    (hlarge : ¬ Readable rs header) :
    rmessageNew env (lit "hadoop.common.RpcResponseHeaderProto") header = none := by
  obtain ⟨ps, rfl, hno, rfl⟩ := hrs.pieces
  have hlen := congrArg List.length (Wire.map_record_spots 0 ps)
  rw [List.length_map] at hlen
  obtain ⟨hheap, -, hmany⟩ := header_unread h hfit
  by_cases hle : (Wire.written ps).length ≤ heapMax
  · exact hmany hno (by rw [hlen]; exact Nat.lt_of_not_le fun hle' => hlarge ⟨hle, hle'⟩)
  · exact hheap (Nat.lt_of_not_le hle)

theorem shortMessage_of_readable {rs : List Wire.Record} (h : Readable rs (Wire.encode rs)) :
    Wire.ShortMessage rs (Wire.encode rs) :=
  Wire.shortMessage_encode rs (Nat.lt_of_le_of_lt h.1 (by decide))

/-- The library reads the id that a header sets. -/
theorem says_callId {env : Env} (h : ResponseHeaderType env) {rs : List Wire.Record}
    {callId : BitVec 32} (hcallId : Wire.SetsOnce rs 1 (.varint (callId.setWidth 64)))
    (hreadable : Readable rs (Wire.encode rs)) :
    ∃ status version, Says env (Wire.encode rs) callId status version := by
  obtain ⟨d₁, d₂, hsays⟩ := says_message h
  obtain ⟨id, status, version, hsaid, hfrom, -⟩ := hsays (shortMessage_of_readable hreadable)
    hreadable
  obtain rfl : id = callId := (hfrom.once hcallId).trans (lowWord_setWidth callId)
  exact ⟨status, version, hsaid⟩

/-- The library reads the id and the status that a header sets, however it is written. -/
theorem says_fields {env : Env} (h : ResponseHeaderType env) {rs : List Wire.Record}
    {callId status : BitVec 32} (hrs : HeaderFields rs callId status) {header : List UInt8}
    (hmsg : Wire.ShortMessage rs header) (hreadable : Readable rs header) :
    ∃ version, Says env header callId status version := by
  obtain ⟨d₁, d₂, hsays⟩ := says_message h
  obtain ⟨id, st, version, hsaid, hfrom₁, hfrom₂⟩ := hsays hmsg hreadable
  obtain rfl : id = callId := (hfrom₁.once hrs.callId_once).trans (lowWord_setWidth callId)
  obtain rfl : st = status := (hfrom₂.once hrs.status_once).trans (lowWord_setWidth status)
  exact ⟨version, hsaid⟩

theorem says_encode {env : Env} (h : ResponseHeaderType env) {rs : List Wire.Record}
    {callId status : BitVec 32} (hrs : HeaderFields rs callId status)
    (hreadable : Readable rs (Wire.encode rs)) :
    ∃ version, Says env (Wire.encode rs) callId status version :=
  says_fields h hrs (shortMessage_of_readable hreadable) hreadable

/-- What cannot be read has no defined end. -/
theorem dispatchResponse_unread {env : Env} {header : List UInt8}
    (h : rmessageNew env (lit "hadoop.common.RpcResponseHeaderProto") header = none) (l : Locals)
    (s : Conn) : (dispatchResponse env l header).run s = .undefined s := by
  simp only [dispatchResponse, h, Prog.ofOption_none, Prog.run_bind, Prog.run_undefined,
    Outcome.andThen_undefined]

/-! ## After the header -/

theorem dispatchResponse_run {env : Env} {header : List UInt8} {callId status version : BitVec 32}
    (h : Says env header callId status version) (l : Locals) (s : Conn) :
    (dispatchResponse env l header).run s =
      if callId ≠ s.proxy.caller_id - 1 then
        .ret .other (s.printing (.callerIdNotMatch callId (s.proxy.caller_id - 1)))
      else if status = 0 then (recvPayload l).run s
      else if status = 1 then .ret ⟨.error, none⟩ s
      else .ret ⟨.fatal, none⟩ (s.printing (.fatal version)) := by
  obtain ⟨m, hnew, hcall, hstatus, hversion⟩ := h.read
  simp only [dispatchResponse, hnew, hstatus, hcall, hversion, Prog.run_bind, Prog.ofOption_some,
    Prog.run_pure, Prog.run_get, Outcome.andThen_ret, Prog.run_ite, Conn.run_print, Conn.printing]

/-! ## The header -/

/-- A length that a varint announces: at most five bytes, and positive as an `int`. -/
structure LengthWord (n : ℕ) (ws : List UInt8) : Prop where
  encodes : Varint.Encodes n ws
  short : ws.length ≤ 5
  pos : 0 < n
  lt : n < 2 ^ 31

theorem lengthWord_encode {n : ℕ} (hpos : 0 < n) (hlt : n < 2 ^ 31) :
    LengthWord n (Varint.encode n) :=
  ⟨Varint.encodes_encode n, Varint.encode_length_le (Nat.lt_trans hlt (by decide)), hpos, hlt⟩

theorem LengthWord.toInt {n : ℕ} {ws : List UInt8} (h : LengthWord n ws) :
    (BitVec.ofNat 32 n).toInt = n := by
  have hlt := h.lt
  rw [BitVec.toInt_eq_toNat_of_lt] <;> rw [BitVec.toNat_ofNat] <;> omega

/-- The length of a header has arrived, and memory for it is there. -/
theorem recvRpcResponse_length {env : Env} {l : Locals} {s : Conn} {n : ℕ}
    {ws rest : List UInt8} {as₁ as₂ : List Ans} (hws : LengthWord n ws)
    (hin : s.incoming = ws ++ rest) (hreads : s.reads = as₁ ++ as₂) (hlive : Transfer.Live as₁)
    (hlen : as₁.length = ws.length) (hmem : s.HasMemory) :
    (recvRpcResponse env l).run s =
      (haveRead (s.setIncoming rest as₂).tookMemory [] (Transfer.carry as₂ n rest.length)).andThen
        fun (rc, header) =>
          if rc ≠ 0 then do
            print .readHeaderFailed
            pure .other
          else dispatchResponse env l header := by
  have hlt := hws.lt
  have hpos := hws.pos
  have hnat := hws.toInt
  have hread := readRawVarint32_run hws.encodes hws.short hin hreads hlive hlen l.tmp
    l.slice_len
  have hmalloc : malloc.run (s.setIncoming rest as₂) =
      .ret true (s.setIncoming rest as₂).tookMemory := malloc_run hmem
  have hguard : ¬ ((0 : ℤ) ≠ 0 ∨ (n : ℤ) ≤ 0) := by omega
  rw [recvRpcResponse, Prog.run_bind, hread, Outcome.andThen_ret]
  dsimp only
  rw [hnat, if_neg hguard]
  change ((malloc.run (s.setIncoming rest as₂)).andThen _) = _
  rw [hmalloc, Outcome.andThen_ret]
  simp only [Bool.not_true, Bool.false_eq_true, if_false, Prog.run_bind,
    readAll_run (by omega : (0 : ℤ) ≤ n), Int.toNat_natCast]
  rfl

/-- The header arrives in full, in front of `rest`, and leaves the answers `left`:
each byte of its length at one read, and the header itself in any pieces. -/
structure HeaderArrives (s : Conn) (header rest : List UInt8) (left : List Ans) : Prop where
  memory : s.HasMemory
  arrives : ∃ ws as₁ as₂, LengthWord header.length ws ∧ s.incoming = ws ++ (header ++ rest) ∧
    s.reads = as₁ ++ as₂ ∧ Transfer.Live as₁ ∧ as₁.length = ws.length ∧
    (Transfer.carry as₂ header.length header.length).ending = .done ∧
    (Transfer.carry as₂ header.length header.length).left = left

/-- A header that has arrived is looked into. -/
theorem recvRpcResponse_header {env : Env} {l : Locals} {s : Conn} {header rest : List UInt8}
    {left : List Ans} (h : HeaderArrives s header rest left) :
    (recvRpcResponse env l).run s =
      (dispatchResponse env l header).run (s.setIncoming rest left).tookMemory := by
  obtain ⟨ws, as₁, as₂, hws, hin, hreads, hlive, hlen, hdone, rfl⟩ := h.arrives
  rw [recvRpcResponse_length hws hin hreads hlive hlen h.memory, Transfer.carry_of_le (by simp)]
  have hcar := Transfer.carried_of_done hdone
  have hstored : (header ++ rest).take (Transfer.carry as₂ header.length header.length).carried =
      header := by
    rw [hcar, List.take_left]
  have hrest : (header ++ rest).drop (Transfer.carry as₂ header.length header.length).carried =
      rest := by
    rw [hcar, List.drop_left]
  simp [haveRead, hdone, Conn.received, Conn.tookMemory, Conn.setIncoming, hstored, hrest]

/-- Where a response with a given header leads. -/
theorem recvRpcResponse_said {env : Env} {l : Locals} {s : Conn} {header rest : List UInt8}
    {left : List Ans} {callId status version : BitVec 32} (h : HeaderArrives s header rest left)
    (hsaid : Says env header callId status version) :
    (recvRpcResponse env l).run s =
      if callId ≠ s.proxy.caller_id - 1 then
        .ret .other ((s.setIncoming rest left).tookMemory.printing
          (.callerIdNotMatch callId (s.proxy.caller_id - 1)))
      else if status = 0 then (recvPayload l).run (s.setIncoming rest left).tookMemory
      else if status = 1 then .ret ⟨.error, none⟩ (s.setIncoming rest left).tookMemory
      else .ret ⟨.fatal, none⟩ ((s.setIncoming rest left).tookMemory.printing (.fatal version)) := by
  rw [recvRpcResponse_header h, dispatchResponse_run hsaid]
  rfl

end HdClient
