import BlobSeer.Rpc.RoundTrip
import BlobSeer.Rpc.ServerThreads

/-!
# What the server makes of each connection

Whatever else happens in between, on every connection the server does what `Rpc.Server.serve` does with
the bytes of this connection alone: the callbacks get the same requests in the same order, and what was
sent to the client is the beginning of the answers (`Follows`). On a connection whose client sends
calls as in `Rpc/Framing.lean`, these are the calls that the client has made, each one once
(`serves_calls`).

A handler that waits for an operation has the rest of the request or of the answer before it. So for each
stage, `Rpc.Server.serve` on all the bytes is rewritten into what is still to be done from there
(`Reads`, `Sends`).
-/

namespace BlobSeer.Rpc

/-! ## Reads with more bytes behind -/

theorem readBytes_more {n : Nat} {input bytes rest : List UInt8}
    (h : readBytes n input = some (bytes, rest)) (more : List UInt8) :
    readBytes n (input ++ more) = some (bytes, rest ++ more) := by
  unfold readBytes at h ⊢
  split at h
  · next hle =>
    cases h
    rw [if_pos (by rw [List.length_append]; omega), List.take_append_of_le_length hle,
      List.drop_append_of_le_length hle]
  · cases h

theorem readSize_more {input rest : List UInt8} {n : UInt32} (h : readSize input = some (n, rest))
    (more : List UInt8) : readSize (input ++ more) = some (n, rest ++ more) := by
  obtain ⟨⟨bytes, rest'⟩, hread, heq⟩ := Option.map_eq_some_iff.mp h
  cases heq
  rw [readSize, readBytes_more hread]
  rfl

theorem readHeader_more {input rest : List UInt8} {header : Header}
    (h : readHeader input = some (header, rest)) (more : List UInt8) :
    readHeader (input ++ more) = some (header, rest ++ more) := by
  obtain ⟨⟨bytes, rest'⟩, hread, heq⟩ := Option.map_eq_some_iff.mp h
  cases heq
  rw [readHeader, readBytes_more hread]
  rfl

theorem readBuffer_more {n : UInt32} {input rest : List UInt8} {buffer : Rpc.Buffer}
    (h : readBuffer n input = some (buffer, rest)) (more : List UInt8) :
    readBuffer n (input ++ more) = some (buffer, rest ++ more) := by
  unfold readBuffer at h ⊢
  split at h
  · next hle =>
    cases h
    have htake : (input ++ more).take n.toNat = input.take n.toNat :=
      List.take_append_of_le_length hle
    have hdrop : (input ++ more).drop n.toNat = input.drop n.toNat ++ more :=
      List.drop_append_of_le_length hle
    rw [if_pos (by rw [List.length_append]; omega)]
    simp only [htake, hdrop]
  · cases h

end BlobSeer.Rpc

namespace BlobSeer

open Lib Rpc Rpc.Server

namespace RpcServer

variable {lookup : UInt32 → Option CallbackKind} {s t : RpcServer} {c : Nat}

/-- The names that `lookup` has. -/
def registered (lookup : UInt32 → Option CallbackKind) (name : UInt32) : Bool := (lookup name).isSome

/-! ## The rest of a request, and the rest of an answer -/

/-- A request that is read to its end, and all after it. -/
def serveRead (registered : UInt32 → Bool) (a : Int32 × List Rpc.Buffer)
    (answers : List (Int32 × List Rpc.Buffer)) (reading : Option (RpcInfo × List UInt8)) :
    Option (List (UInt32 × List Rpc.Buffer) × List UInt8 × List UInt8) :=
  match reading with
  | none => none
  | some (info, input) =>
    match answer info a.1 a.2 with
    | none => none
    | some (info', out) => (serve registered answers info' input).map fun (requests, outs, rest) =>
      ((info.header.name, info.params) :: requests, out ++ outs, rest)

theorem serve_cons (registered : UInt32 → Bool) (a : Int32 × List Rpc.Buffer)
    (answers : List (Int32 × List Rpc.Buffer)) (info : RpcInfo) (input : List UInt8) :
    serve registered (a :: answers) info input =
      serveRead registered a answers (readRequest registered info input) := rfl

/-- What comes after what a connection has done. -/
def resume (x : RpcConnection) (out : List UInt8)
    (later : Option (List (UInt32 × List Rpc.Buffer) × List UInt8 × List UInt8)) :
    Option (List (UInt32 × List Rpc.Buffer) × List UInt8 × List UInt8) :=
  later.map fun (requests, outs, rest) => (x.requests ++ requests, x.output ++ (out ++ outs), rest)

/-- The requests of a connection and what was sent to it are those of the sequential server. -/
def Follows (lookup : UInt32 → Option CallbackKind) (x : RpcConnection) : Prop :=
  ∀ more, ∃ outs rest, serve (registered lookup) x.answers ({} : RpcConnection).info
    (x.received ++ more) = some (x.requests, outs, rest) ∧ x.output <+: outs

/-- All answers are sent, and the rest of the request is read as `reading`. -/
structure Reads (lookup : UInt32 → Option CallbackKind) (x : RpcConnection)
    (reading : List UInt8 → Option (RpcInfo × List UInt8)) : Prop where
  sent : ∀ more, ∃ rest, serve (registered lookup) x.answers ({} : RpcConnection).info
    (x.received ++ more) = some (x.requests, x.output, rest)
  next : ∀ more a answers, serve (registered lookup) (x.answers ++ a :: answers)
    ({} : RpcConnection).info (x.received ++ more) =
      resume x [] (serveRead (registered lookup) a answers (reading (x.input ++ more)))

/-- The rest `sending` of the answer is sent. -/
def Sends (lookup : UInt32 → Option CallbackKind) (x : RpcConnection)
    (sending : Option (UInt32 × List UInt8)) : Prop :=
  ∃ psize out, sending = some (psize, out) ∧
    ∀ more answers, serve (registered lookup) (x.answers ++ answers) ({} : RpcConnection).info
      (x.received ++ more) =
        resume x out (serve (registered lookup) answers (x.info.setPsize psize) (x.input ++ more))

/-- What a connection has before it in each stage. -/
def AtStage (lookup : UInt32 → Option CallbackKind) (x : RpcConnection) : RpcStage → Prop
  | .header => Reads lookup x (readRequest (registered lookup) x.info)
  | .paramSize index => index < x.info.params.length ∧ x.info.params.length < 2 ^ 32 ∧
    Reads lookup x (paramLoop (x.info.params.length - index) index x.info)
  | .paramBuffer index => index < x.info.params.length ∧ x.info.params.length < 2 ^ 32 ∧
    Reads lookup x fun input =>
      match readBuffer x.info.header.psize input with
      | none => none
      | some (buffer, input) => paramLoop (x.info.params.length - (index + 1)) (index + 1)
        { x.info with params := x.info.params.set index buffer } input
  | .answer => x.info.result.length < 2 ^ 32 ∧
    Sends lookup x (sendMessage x.info.header x.info.result)
  | .answerSize index => index < x.info.result.length ∧ x.info.result.length < 2 ^ 32 ∧
    x.info.header.psize = (x.info.result.getD index .empty).size ∧
    Sends lookup x ((sendLoop x.info.result (x.info.result.length - index) (index + 1)
      x.info.header.psize).map fun (psize, out) =>
        (psize, u32Bytes x.info.header.psize ++ ((x.info.result.getD index .empty).content ++ out)))
  | .answerBuffer index => index < x.info.result.length ∧ x.info.result.length < 2 ^ 32 ∧
    Sends lookup x ((sendLoop x.info.result (x.info.result.length - index) (index + 1)
      x.info.header.psize).map fun (psize, out) =>
        (psize, (x.info.result.getD index .empty).content ++ out))

/-- The request was read. -/
def Ready (lookup : UInt32 → Option CallbackKind) (x : RpcConnection) : Prop :=
  Reads lookup x fun input => some (x.info, input)

variable {x : RpcConnection}

theorem Reads.follows {reading : List UInt8 → Option (RpcInfo × List UInt8)}
    (h : Reads lookup x reading) : Follows lookup x := by
  intro more
  obtain ⟨rest, hserve⟩ := h.sent more
  exact ⟨x.output, rest, hserve, List.prefix_rfl⟩

theorem Reads.new (lookup : UInt32 → Option CallbackKind) :
    Reads lookup {} (readRequest (registered lookup) ({} : RpcConnection).info) := by
  refine ⟨fun more => ⟨more, rfl⟩, fun more a answers => ?_⟩
  show serve _ (a :: answers) _ more = resume _ _ (serveRead _ a answers (readRequest _ _ more))
  rw [serve_cons]
  cases serveRead (registered lookup) a answers
    (readRequest (registered lookup) ({} : RpcConnection).info more) with
  | none => rfl
  | some later => rfl

theorem Sends.follows {sending : Option (UInt32 × List UInt8)} (h : Sends lookup x sending) :
    Follows lookup x := by
  obtain ⟨psize, out, -, hnext⟩ := h
  intro more
  have hserve := hnext more []
  rw [List.append_nil] at hserve
  refine ⟨x.output ++ (out ++ []), x.input ++ more, hserve.trans ?_, List.prefix_append _ _⟩
  simp only [serve, resume, Option.map_some, List.append_nil]

theorem AtStage.follows {stage : RpcStage} (h : AtStage lookup x stage) : Follows lookup x := by
  cases stage with
  | header => exact Reads.follows h
  | paramSize index => exact h.2.2.follows
  | paramBuffer index => exact h.2.2.follows
  | answer => exact h.2.follows
  | answerSize index => exact h.2.2.2.follows
  | answerBuffer index => exact h.2.2.follows

/-- Nothing depends on whether the connection is open, or since when. -/
theorem AtStage.keep {stage : RpcStage} (h : AtStage lookup x stage) (isOpen : Bool) (began : Nat) :
    AtStage lookup { x with isOpen := isOpen, began := began } stage := by
  have hreads : ∀ {reading}, Reads lookup x reading →
      Reads lookup { x with isOpen := isOpen, began := began } reading := by
    intro reading hreads
    have hsent := hreads.sent
    have hnext := hreads.next
    exact ⟨hsent, hnext⟩
  cases stage with
  | header => exact hreads h
  | paramSize index => exact ⟨h.1, h.2.1, hreads h.2.2⟩
  | paramBuffer index => exact ⟨h.1, h.2.1, hreads h.2.2⟩
  | answer => exact h
  | answerSize index => exact h
  | answerBuffer index => exact h

/-! ## More bytes from the client -/

/-- The client has sent `bytes`. -/
def receive (x : RpcConnection) (bytes : List UInt8) : RpcConnection :=
  { x with input := x.input ++ bytes, received := x.received ++ bytes }

theorem Follows.receive (h : Follows lookup x) (bytes : List UInt8) :
    Follows lookup (receive x bytes) := by
  intro more
  obtain ⟨outs, rest, hserve, hout⟩ := h (bytes ++ more)
  refine ⟨outs, rest, ?_, hout⟩
  rw [← List.append_assoc] at hserve
  exact hserve

theorem Reads.receive {reading : List UInt8 → Option (RpcInfo × List UInt8)}
    (h : Reads lookup x reading) (bytes : List UInt8) :
    Reads lookup (receive x bytes) reading := by
  refine ⟨fun more => ?_, fun more a answers => ?_⟩
  · obtain ⟨rest, hserve⟩ := h.sent (bytes ++ more)
    rw [← List.append_assoc] at hserve
    exact ⟨rest, hserve⟩
  · have hnext := h.next (bytes ++ more) a answers
    rw [← List.append_assoc, ← List.append_assoc] at hnext
    exact hnext

theorem Sends.receive {sending : Option (UInt32 × List UInt8)} (h : Sends lookup x sending)
    (bytes : List UInt8) : Sends lookup (receive x bytes) sending := by
  obtain ⟨psize, out, hsending, hnext⟩ := h
  refine ⟨psize, out, hsending, fun more answers => ?_⟩
  have hnext := hnext (bytes ++ more) answers
  rw [← List.append_assoc, ← List.append_assoc] at hnext
  exact hnext

theorem AtStage.receive {stage : RpcStage} (h : AtStage lookup x stage) (bytes : List UInt8) :
    AtStage lookup (receive x bytes) stage := by
  cases stage with
  | header => exact Reads.receive h bytes
  | paramSize index => exact ⟨h.1, h.2.1, h.2.2.receive bytes⟩
  | paramBuffer index => exact ⟨h.1, h.2.1, h.2.2.receive bytes⟩
  | answer => exact ⟨h.1, h.2.receive bytes⟩
  | answerSize index => exact ⟨h.1, h.2.1, h.2.2.1, h.2.2.2.receive bytes⟩
  | answerBuffer index => exact ⟨h.1, h.2.1, h.2.2.receive bytes⟩

/-! ## What each operation leaves to do -/

namespace AtStage

/-- The header of a request that is known. -/
theorem header_read (h : AtStage lookup x .header) {header : Header} {rest : List UInt8}
    (hread : readHeader x.input = some (header, rest))
    (hname : registered lookup header.name = true) {info : RpcInfo}
    (hinfo : info = { x.info with
      header := header
      params := resize x.info.params header.psize.toNat }) :
    Reads lookup { x with input := rest, info := info } (paramLoop info.params.length 0 info) := by
  subst hinfo
  have hreads : Reads lookup x (readRequest (registered lookup) x.info) := h
  refine ⟨hreads.sent, fun more a answers => ?_⟩
  have hnext := hreads.next more a answers
  rw [readRequest, readHeader_more hread] at hnext
  dsimp only at hnext
  rw [if_pos hname] at hnext
  exact hnext

theorem paramSize_read {index : Nat} (h : AtStage lookup x (.paramSize index)) {psize : UInt32}
    {rest : List UInt8} (hread : readSize x.input = some (psize, rest)) :
    AtStage lookup { x with input := rest, info := x.info.setPsize psize } (.paramBuffer index) := by
  obtain ⟨hindex, hlen, hreads⟩ := h
  refine ⟨hindex, hlen, hreads.sent, fun more a answers => ?_⟩
  have hnext := hreads.next more a answers
  have hcount : x.info.params.length - index = x.info.params.length - (index + 1) + 1 := by omega
  rw [hcount, paramLoop, readSize_more hread] at hnext
  exact hnext

theorem paramBuffer_read {index : Nat} (h : AtStage lookup x (.paramBuffer index)) {buffer : Rpc.Buffer}
    {rest : List UInt8} (hread : readBuffer x.info.header.psize x.input = some (buffer, rest))
    {info : RpcInfo} (hinfo : info = { x.info with params := x.info.params.set index buffer }) :
    Reads lookup { x with input := rest, info := info }
      (paramLoop (info.params.length - (index + 1)) (index + 1) info) := by
  obtain ⟨hindex, hlen, hreads⟩ := h
  subst hinfo
  refine ⟨hreads.sent, fun more a answers => ?_⟩
  have hnext := hreads.next more a answers
  rw [readBuffer_more hread] at hnext
  dsimp only at hnext ⊢
  rw [List.length_set]
  exact hnext

/-- Once the bytes `out` are sent, there are that many less. -/
theorem sends_written {out : List UInt8} {sending : Option (UInt32 × List UInt8)}
    (h : Sends lookup x (sending.map fun (psize, rest) => (psize, out ++ rest))) :
    Sends lookup { x with output := x.output ++ out } sending := by
  obtain ⟨psize, all, hsending, hnext⟩ := h
  obtain ⟨⟨psize', rest⟩, hrest, heq⟩ := Option.map_eq_some_iff.mp hsending
  cases heq
  refine ⟨psize, rest, hrest, fun more answers => (hnext more answers).trans ?_⟩
  simp only [resume, List.append_assoc]

theorem answerSize_written {index : Nat} (h : AtStage lookup x (.answerSize index)) :
    AtStage lookup { x with output := x.output ++ u32Bytes x.info.header.psize }
      (.answerBuffer index) := by
  obtain ⟨hindex, hlen, hpsize, hsends⟩ := h
  refine ⟨hindex, hlen, sends_written ?_⟩
  rw [Option.map_map]
  exact hsends

end AtStage

/-- A write that has failed may have sent the beginning of its bytes. -/
theorem AtStage.failed {stage : RpcStage} (h : AtStage lookup x stage) (n : Nat) :
    Follows lookup { x with output := x.output ++ (written x stage).take n } := by
  have hread : Follows lookup { x with output := x.output ++ List.take n [] } := by
    rw [List.take_nil, List.append_nil]
    exact h.follows
  have hwrite : ∀ {out sending},
      Sends lookup x (Option.map (fun (later : UInt32 × List UInt8) => (later.1, out ++ later.2))
        sending) → Follows lookup { x with output := x.output ++ out.take n } := by
    rintro out sending ⟨psize, all, hsending, hnext⟩ more
    obtain ⟨later, -, heq⟩ := Option.map_eq_some_iff.mp hsending
    cases heq
    have hserve := hnext more []
    rw [List.append_nil] at hserve
    refine ⟨x.output ++ (out ++ later.2 ++ []), x.input ++ more, hserve.trans ?_, ?_⟩
    · simp only [serve, resume, Option.map_some, List.append_nil]
    · refine (List.prefix_append_right_inj _).mpr ?_
      rw [List.append_assoc]
      exact (List.take_prefix n out).trans (List.prefix_append _ _)
  cases stage with
  | header => exact hread
  | paramSize index => exact hread
  | paramBuffer index => exact hread
  | answer => exact hwrite h.2
  | answerSize index =>
    have hsends : Sends lookup x (((sendLoop x.info.result (x.info.result.length - index) (index + 1)
        x.info.header.psize).map fun (psize, out) =>
          (psize, (x.info.result.getD index .empty).content ++ out)).map fun later =>
            (later.1, u32Bytes x.info.header.psize ++ later.2)) := by
      rw [Option.map_map]
      exact h.2.2.2
    exact hwrite hsends
  | answerBuffer index => exact hwrite h.2.2

/-- The callback has left `status` and `result`. -/
theorem Ready.finished (h : Ready lookup x) (status : Int32) {result : List Rpc.Buffer}
    (hlen : result.length < 2 ^ 32) : AtStage lookup { x with
      info := { x.info with
        result := result
        header := { x.info.header with status := status, psize := .ofNat result.length } }
      requests := x.requests ++ [(x.info.header.name, x.info.params)]
      answers := x.answers ++ [(status, result)] } .answer := by
  obtain ⟨psize, hsend⟩ := sendMessage_eq
    { x.info.header with status := status, psize := .ofNat result.length } hlen
  refine ⟨hlen, psize, _, hsend, fun more answers => ?_⟩
  have hnext := h.next more (status, result) answers
  rw [List.append_cons] at hnext
  refine hnext.trans ?_
  simp only [serveRead, answer, hsend, Option.map_some]
  simp only [resume, Option.map_map]
  congr 1
  funext later
  simp only [Function.comp, List.append_assoc, List.nil_append, List.cons_append]

/-! ## The server -/

/-- A callback leaves fewer than `2 ^ 32` results. -/
def Answers : ServerEvent → Prop
  | .finish _ result => result.length < 2 ^ 32
  | _ => True

instance : DecidablePred Answers := fun e =>
  match e with
  | .finish _ result => inferInstanceAs (Decidable (result.length < 2 ^ 32))
  | .accept _ | .receive _ _ | .complete _ | .fail _ _ | .take | .spurious | .throws | .noEndpoint
  | .clock _ | .watchdog => .isTrue trivial

/-- Every connection follows the sequential server, and has before it what its place says. -/
structure Conforms (lookup : UInt32 → Option CallbackKind) (s : RpcServer) : Prop where
  follows : ∀ c < s.conns.length, Follows lookup (s.conn c)
  ops : ∀ op ∈ s.outstanding, AtStage lookup (s.conn op.conn) op.stage
  tasks : ∀ c ∈ s.taskQueue ++ s.busy, Ready lookup (s.conn c)

namespace Conforms

theorem mem_owners {op : ServerOp} (h : op ∈ s.outstanding) : op.conn ∈ s.owners :=
  List.mem_append_left _ (List.mem_map_of_mem h)

/-- A connection that is in no place may change. -/
theorem setConn (h : Conforms lookup s) (hc : c ∉ s.owners) {f : RpcConnection → RpcConnection}
    (hlt : c < s.conns.length) (hf : Follows lookup (f (s.conn c))) :
    Conforms lookup (s.setConn c f) := by
  have hne : ∀ {d}, d ∈ s.owners → (s.setConn c f).conn d = s.conn d := by
    intro d hd
    refine conn_setConn_ne ?_ f
    rintro rfl
    exact hc hd
  refine ⟨fun d hd => ?_, fun op hop => ?_, fun d hd => ?_⟩
  · rw [length_setConn] at hd
    by_cases hdc : d = c
    · subst hdc
      rw [conn_setConn_self hlt]
      exact hf
    · rw [conn_setConn_ne hdc]
      exact h.follows d hd
  · rw [hne (mem_owners hop)]
    exact h.ops op hop
  · rw [hne (List.mem_append_right _ hd)]
    exact h.tasks d hd

theorem transfer (h : Conforms lookup s) {stage : RpcStage}
    (hstage : AtStage lookup (s.conn c) stage) : Conforms lookup (s.transfer c stage) := by
  refine ⟨h.follows, fun op hop => ?_, h.tasks⟩
  rcases List.mem_append.mp hop with hop | hop
  · exact h.ops op hop
  · cases List.mem_singleton.mp hop
    exact hstage

theorem enqueue (h : Conforms lookup s) (hready : Ready lookup (s.conn c)) :
    Conforms lookup (s.enqueue c) := by
  refine ⟨h.follows, h.ops, fun d hd => ?_⟩
  rw [busy_enqueue] at hd
  rcases List.mem_append.mp hd with hd | hd
  · rcases List.mem_append.mp hd with hd | hd
    · exact h.tasks d (List.mem_append_left _ hd)
    · cases List.mem_singleton.mp hd
      exact hready
  · exact h.tasks d (List.mem_append_right _ hd)

/-- Parameters from `index` on are left to read. -/
theorem handleParams (h : Conforms lookup s) {index : Nat}
    (hlen : (s.conn c).info.params.length < 2 ^ 32)
    (hreads : Reads lookup (s.conn c)
      (paramLoop ((s.conn c).info.params.length - index) index (s.conn c).info)) :
    Conforms lookup (s.handleParams c index) := by
  unfold RpcServer.handleParams
  split
  · next hlt => exact h.transfer ⟨hlt, hlen, hreads⟩
  · next hge =>
    refine h.enqueue ?_
    rw [Nat.sub_eq_zero_of_le (Nat.le_of_not_lt hge)] at hreads
    exact hreads

theorem handleConnection (h : Conforms lookup s) (hc : c ∉ s.owners) (hlt : c < s.conns.length)
    (hreads : Reads lookup (s.conn c) (readRequest (registered lookup) (s.conn c).info)) :
    Conforms lookup (s.handleConnection c) := by
  have hset : Conforms lookup (s.setConn c fun x => { x with began := s.now }) :=
    h.setConn hc hlt hreads.follows
  have hadd : Conforms lookup
      ((s.setConn c fun x => { x with began := s.now }).addTimer c (s.now + timeout)) := by
    rw [addTimer_eq]
    exact ⟨hset.follows, hset.ops, hset.tasks⟩
  refine hadd.transfer ?_
  rw [conn, addTimer_eq]
  show AtStage lookup ((s.setConn c fun x => { x with began := s.now }).conn c) .header
  rw [conn_setConn_self hlt]
  have hsent := hreads.sent
  have hnext := hreads.next
  exact ⟨hsent, hnext⟩

/-- Results from `index` on are left to send. -/
theorem handleAnswer (h : Conforms lookup s) (hc : c ∉ s.owners) (hlt : c < s.conns.length)
    {index : Nat} (hindex : index ≤ (s.conn c).info.result.length)
    (hlen : (s.conn c).info.result.length < 2 ^ 32)
    (hsends : Sends lookup (s.conn c) (sendLoop (s.conn c).info.result
      ((s.conn c).info.result.length + 1 - index) index (s.conn c).info.header.psize)) :
    Conforms lookup (s.handleAnswer c index) := by
  have hfuel : (s.conn c).info.result.length + 1 - index =
      (s.conn c).info.result.length - index + 1 := by omega
  obtain ⟨psize, out, hsending, hnext⟩ := hsends
  rw [hfuel, sendLoop] at hsending
  unfold RpcServer.handleAnswer
  dsimp only
  split
  · next hlt' =>
    rw [if_pos hlt', u32_of_lt (by omega)] at hsending
    refine (h.setConn hc hlt (Sends.follows ⟨psize, out, hsending, hnext⟩)).transfer ?_
    rw [conn_setConn_self hlt]
    exact ⟨hlt', hlen, rfl, psize, out, hsending, hnext⟩
  · next hge =>
    rw [if_neg hge] at hsending
    cases hsending
    have hcancel : Conforms lookup (s.cancelTimer c) := ⟨h.follows, h.ops, h.tasks⟩
    refine hcancel.handleConnection hc hlt ⟨fun more => ?_, fun more a answers => ?_⟩
    · have hserve := hnext more []
      rw [List.append_nil] at hserve
      refine ⟨(s.conn c).input ++ more, hserve.trans ?_⟩
      simp only [serve, resume, Option.map_some, List.append_nil]
      rfl
    · exact hnext more (a :: answers)

/-- The handlers. The connection `c` is in no place while its handler runs. -/
theorem handle (h : Conforms lookup s) (hc : c ∉ s.owners) (hlt : c < s.conns.length)
    {stage : RpcStage} (hstage : AtStage lookup (s.conn c) stage)
    (ht : s.handle lookup c stage = some t) : Conforms lookup t := by
  have hfollows := hstage.follows
  cases stage with
  | header =>
    obtain ⟨⟨header, rest⟩, hread, rfl⟩ := Option.map_eq_some_iff.mp ht
    dsimp only
    unfold handleHeader
    rw [read, setConn_setConn, setConn_setConn]
    split
    · next hname =>
      have hreads := hstage.header_read hread hname rfl
      refine (h.setConn hc hlt hreads.follows).handleParams ?_ ?_
      · rw [conn_setConn_self hlt]
        exact Nat.lt_of_le_of_lt (resize_length _ _).le header.psize.toNat_lt
      · rw [conn_setConn_self hlt]
        exact hreads
    · have hset := h.setConn (f := fun x => { x with
        input := rest
        info := { x.info with header := header } }) hc hlt hfollows
      exact ⟨hset.follows, hset.ops, hset.tasks⟩
  | paramSize index =>
    obtain ⟨⟨psize, rest⟩, hread, rfl⟩ := Option.map_eq_some_iff.mp ht
    have hnext := hstage.paramSize_read hread
    dsimp only
    rw [read, setConn_setConn]
    refine (h.setConn hc hlt hnext.follows).transfer ?_
    rw [conn_setConn_self hlt]
    exact hnext
  | paramBuffer index =>
    obtain ⟨⟨buffer, rest⟩, hread, rfl⟩ := Option.map_eq_some_iff.mp ht
    have hreads := hstage.paramBuffer_read hread rfl
    obtain ⟨hindex, hlen, -⟩ := hstage
    dsimp only
    rw [read, setConn_setConn, u32_of_lt (by omega)]
    refine (h.setConn hc hlt hreads.follows).handleParams ?_ ?_
    · rw [conn_setConn_self hlt]
      exact Nat.lt_of_le_of_lt List.length_set.le hlen
    · rw [conn_setConn_self hlt]
      exact hreads
  | answer =>
    cases ht
    obtain ⟨hlen, hsends⟩ := hstage
    have hsends := AtStage.sends_written hsends
    refine (h.setConn hc hlt hsends.follows).handleAnswer hc ?_ ?_ ?_ ?_
    · rw [length_setConn]
      exact hlt
    · exact Nat.zero_le _
    · rw [conn_setConn_self hlt]
      exact hlen
    · rw [conn_setConn_self hlt]
      exact hsends
  | answerSize index =>
    cases ht
    have hnext := hstage.answerSize_written
    refine (h.setConn hc hlt hnext.follows).transfer ?_
    rw [conn_setConn_self hlt]
    exact hnext
  | answerBuffer index =>
    cases ht
    obtain ⟨hindex, hlen, hsends⟩ := hstage
    have hsends := AtStage.sends_written hsends
    rw [u32_of_lt (by omega)]
    refine (h.setConn hc hlt hsends.follows).handleAnswer hc ?_ ?_ ?_ ?_
    · rw [length_setConn]
      exact hlt
    · rw [conn_setConn_self hlt]
      exact hindex
    · rw [conn_setConn_self hlt]
      exact hlen
    · rw [conn_setConn_self hlt, Nat.add_sub_add_right]
      exact hsends

/-- Connections that have only been opened or closed, or moved from one place to another. -/
theorem keep (h : Conforms lookup s) (hlen : t.conns.length = s.conns.length)
    (hconn : ∀ c, ∃ isOpen began, t.conn c = { s.conn c with isOpen := isOpen, began := began })
    (hops : ∀ op ∈ t.outstanding, op ∈ s.outstanding)
    (htasks : ∀ c ∈ t.taskQueue ++ t.busy, c ∈ s.taskQueue ++ s.busy) : Conforms lookup t := by
  refine ⟨fun c hc => ?_, fun op hop => ?_, fun c hc => ?_⟩
  · obtain ⟨isOpen, began, heq⟩ := hconn c
    rw [heq]
    exact h.follows c (hlen ▸ hc)
  · obtain ⟨isOpen, began, heq⟩ := hconn op.conn
    rw [heq]
    exact (h.ops op (hops op hop)).keep isOpen began
  · obtain ⟨isOpen, began, heq⟩ := hconn c
    rw [heq]
    have hready := h.tasks c (htasks c hc)
    have hsent := hready.sent
    have hnext := hready.next
    exact ⟨hsent, hnext⟩

theorem receive (h : Conforms lookup s) (hlt : c < s.conns.length) (bytes : List UInt8) :
    Conforms lookup (s.setConn c fun x => RpcServer.receive x bytes) := by
  refine ⟨fun d hd => ?_, fun op hop => ?_, fun d hd => ?_⟩
  · rw [length_setConn] at hd
    by_cases hdc : d = c
    · subst hdc
      rw [conn_setConn_self hlt]
      exact (h.follows d hlt).receive bytes
    · rw [conn_setConn_ne hdc]
      exact h.follows d hd
  · by_cases hdc : op.conn = c
    · rw [hdc, conn_setConn_self hlt]
      exact (hdc ▸ h.ops op hop).receive bytes
    · rw [conn_setConn_ne hdc]
      exact h.ops op hop
  · by_cases hdc : d = c
    · subst hdc
      rw [conn_setConn_self hlt]
      exact (h.tasks d hd).receive bytes
    · rw [conn_setConn_ne hdc]
      exact h.tasks d hd

theorem finish (h : Conforms lookup s) (hheld : Held [] s) (hrunning : s.processor = .running)
    (hc : s.rpcData = some c) (status : Int32) {result : List Rpc.Buffer}
    (hlen : result.length < 2 ^ 32) : Conforms lookup (s.finish c status result) := by
  have hbusy : s.busy = [c] := by
    rw [busy, if_pos hrunning, hc]
    rfl
  have hmem : c ∈ s.taskQueue ++ s.busy := by
    rw [hbusy]
    exact List.mem_append_right _ (List.mem_singleton_self c)
  have hlt : c < s.conns.length :=
    hheld.valid c (List.mem_append_right _ (List.mem_append_right _ hmem))
  have hready := h.tasks c hmem
  have hfree : Conforms lookup { s with processor := .free } :=
    ⟨h.follows, h.ops, fun d hd => h.tasks d (by
      rw [busy, if_neg (by simp), List.append_nil] at hd
      exact List.mem_append_left _ hd)⟩
  have hnot : c ∉ owners { s with processor := .free } := by
    have hnodup := hheld.nodup
    rw [List.nil_append, owners, hbusy, ← List.append_assoc] at hnodup
    have hdisjoint := List.disjoint_of_nodup_append hnodup
    intro hin
    rw [owners, busy, if_neg (by simp), List.append_nil] at hin
    exact hdisjoint hin (List.mem_singleton_self c)
  have hstage := hready.finished status hlen
  refine (hfree.setConn hnot hlt hstage.follows).transfer ?_
  rw [conn_setConn_self (s := { s with processor := .free }) hlt]
  exact hstage

/-- A connection that has just been accepted. -/
theorem accept (h : Conforms lookup s) :
    Conforms lookup { s with conns := s.conns ++ [({} : RpcConnection)] } := by
  refine ⟨fun c hc => ?_, fun op hop => ?_, fun c hc => ?_⟩
  · rw [conn_accept]
    rcases Nat.lt_or_ge c s.conns.length with hlt | hge
    · exact h.follows c hlt
    · have hnew : s.conn c = {} := by
        rw [conn, List.getD_eq_getElem?_getD, List.getElem?_eq_none hge]
        rfl
      rw [hnew]
      exact (Reads.new lookup).follows
  · rw [conn_accept]
    exact h.ops op hop
  · rw [conn_accept]
    exact h.tasks c hc

theorem dequeue (h : Conforms lookup s) : Conforms lookup s.dequeue := by
  unfold RpcServer.dequeue
  split
  · next c tasks htasks =>
    refine ⟨h.follows, h.ops, fun d hd => h.tasks d ?_⟩
    rw [htasks]
    rcases List.mem_append.mp hd with hd | hd
    · exact List.mem_append_left _ (List.mem_cons_of_mem _ hd)
    · exact List.mem_append_left _ (List.mem_cons.mpr (.inl (List.mem_singleton.mp hd)))
  · exact ⟨h.follows, h.ops, h.tasks⟩

/-- The processor has no connection. -/
theorem idle (h : Conforms lookup s) {processor : Processor} (hp : processor ≠ .running) :
    Conforms lookup { s with processor := processor } := by
  refine ⟨h.follows, h.ops, fun d hd => h.tasks d ?_⟩
  rw [busy, if_neg hp, List.append_nil] at hd
  exact List.mem_append_left _ hd

theorem watchdog (h : Conforms lookup s) : Conforms lookup s.watchdog := by
  refine h.keep watchdog_length (fun c => ?_) (fun op hop => ?_) fun c hc => ?_
  · refine ⟨(s.watchdog.conn c).isOpen, (s.conn c).began, ?_⟩
    exact watchdog_conn c
  · rw [watchdog_eq] at hop
    exact hop
  · rw [watchdog_eq] at hc
    exact hc

theorem step (h : Conforms lookup s) (hheld : Held [] s) {e : ServerEvent} (he : Answers e)
    (hstep : RpcServer.step lookup s e = some t) : Conforms lookup t := by
  unfold RpcServer.step at hstep
  split at hstep
  · cases hstep
  cases e with
  | accept error =>
    cases hstep
    unfold handleAccept
    split
    · exact h
    · refine h.accept.handleConnection ?_ ?_ ?_
      · exact fun hc => Nat.lt_irrefl _ (hheld.valid _ hc)
      · rw [List.length_append]
        exact Nat.lt_succ_self _
      · have hnew : s.conn s.conns.length = {} := by
          rw [conn, List.getD_eq_getElem?_getD, List.getElem?_eq_none (Nat.le_refl _)]
          rfl
        rw [conn_accept, hnew]
        exact Reads.new lookup
  | receive c bytes =>
    simp only [Option.ite_none_right_eq_some, Option.some.injEq] at hstep
    obtain ⟨hlt, rfl⟩ := hstep
    exact h.receive hlt bytes
  | complete k =>
    dsimp only at hstep
    cases hop : s.outstanding[k]? with
    | none =>
      rw [hop] at hstep
      cases hstep
    | some op =>
      rw [hop] at hstep
      simp only [Option.ite_none_right_eq_some] at hstep
      have hheld' := hheld.complete hop
      have hmem : op ∈ s.outstanding := List.mem_of_getElem? hop
      have hkept : Conforms lookup { s with outstanding := s.outstanding.eraseIdx k } :=
        ⟨h.follows, fun op hop => h.ops op (List.mem_of_mem_eraseIdx hop), h.tasks⟩
      exact hkept.handle (List.nodup_cons.mp hheld'.nodup).1 (hheld'.valid _ List.mem_cons_self)
        (h.ops op hmem) hstep.2
  | fail k n =>
    dsimp only at hstep
    cases hop : s.outstanding[k]? with
    | none =>
      rw [hop] at hstep
      cases hstep
    | some op =>
      rw [hop] at hstep
      cases hstep
      have hheld' := hheld.complete hop
      have hkept : Conforms lookup { s with outstanding := s.outstanding.eraseIdx k } :=
        ⟨h.follows, fun op hop => h.ops op (List.mem_of_mem_eraseIdx hop), h.tasks⟩
      have hset := hkept.setConn (f := fun x => { x with
        output := x.output ++ (written (s.conn op.conn) op.stage).take n })
        (List.nodup_cons.mp hheld'.nodup).1 (hheld'.valid _ List.mem_cons_self)
        ((h.ops op (List.mem_of_getElem? hop)).failed n)
      exact ⟨hset.follows, hset.ops, hset.tasks⟩
  | take =>
    dsimp only at hstep
    split at hstep
    · split at hstep
      · cases hstep
        exact h.idle (by simp)
      · cases hstep
        exact h.dequeue
    · cases hstep
      exact h.dequeue
    · cases hstep
  | spurious =>
    simp only [Option.ite_none_right_eq_some, Option.some.injEq] at hstep
    obtain ⟨-, rfl⟩ := hstep
    exact h.idle (by simp)
  | finish status result =>
    dsimp only at hstep
    split at hstep
    · next hp hc =>
      split at hstep
      · cases hstep
      · cases hstep
        exact h.finish hheld hp hc status he
    · cases hstep
  | throws =>
    dsimp only at hstep
    split at hstep
    · cases hstep
      exact ⟨h.follows, h.ops, h.tasks⟩
    · cases hstep
  | noEndpoint =>
    dsimp only at hstep
    split at hstep
    · split at hstep
      · cases hstep
        exact ⟨h.follows, h.ops, h.tasks⟩
      · cases hstep
    · cases hstep
  | clock now =>
    cases hstep
    exact ⟨h.follows, h.ops, h.tasks⟩
  | watchdog =>
    cases hstep
    exact h.watchdog

end Conforms

/-! ## Runs -/

theorem run_conforms {events : List ServerEvent}
    (h : Run (step lookup) (fun _ e => Answers e) {} events s) : Conforms lookup s := by
  have hboth : Held [] s ∧ Conforms lookup s := by
    refine h.inv (P := fun s => Held [] s ∧ Conforms lookup s) ?_ ⟨.nil, ?_⟩
    · rintro s t e ⟨hheld, hs⟩ he hstep
      exact ⟨hheld.step hstep, hs.step hheld he hstep⟩
    · exact ⟨by simp, List.forall_mem_nil _, List.forall_mem_nil _⟩
  exact hboth.2

/-- The bytes of the answers to the first calls. -/
def replies (calls : List Client.Call) (answers : List (Int32 × List Rpc.Buffer)) : List UInt8 :=
  (calls.zip answers).flatMap fun (call, a) => answerBytes call.name a

theorem params_lt_of_send {call : Client.Call} {sent : RpcInfo × List UInt8}
    (h : Client.send call = some sent) : call.params.length < 2 ^ 32 := by
  by_contra hge
  rw [Client.send, sendMessage, sendLoop_none (Nat.le_of_not_lt hge) _ _ (by decide)] at h
  cases h

theorem result_lt_of_answer {info : RpcInfo} {a : Int32 × List Rpc.Buffer} {sent : RpcInfo × List UInt8}
    (h : answer info a.1 a.2 = some sent) : a.2.length < 2 ^ 32 := by
  by_contra hge
  rw [answer, sendMessage, sendLoop_none (Nat.le_of_not_lt hge) _ _ (by decide)] at h
  cases h

/-- The sequential server on the bytes of well-formed calls. It answers none from the first one on whose
name is not registered. -/
theorem serve_stream {known : UInt32 → Bool} :
    ∀ (answers : List (Int32 × List Rpc.Buffer)) {calls : List Client.Call} {bytes : List UInt8}
      {info : RpcInfo} {requests : List (UInt32 × List Rpc.Buffer)} {outs rest : List UInt8},
      Client.stream calls = some bytes →
      serve known answers info bytes = some (requests, outs, rest) →
      requests = (calls.take answers.length).map (fun call => (call.name, call.params)) ∧
        outs = replies calls answers ∧ answers.length ≤ calls.length ∧
        ∀ a ∈ answers, a.2.length < 2 ^ 32 := by
  intro answers
  induction answers with
  | nil =>
    intro calls bytes info requests outs rest _ hserve
    cases hserve
    refine ⟨rfl, ?_, Nat.zero_le _, List.forall_mem_nil _⟩
    rw [replies, List.zip_nil_right, List.flatMap_nil]
  | cons a answers ih =>
    intro calls bytes info requests outs rest hstream hserve
    rw [serve_cons] at hserve
    cases calls with
    | nil =>
      cases hstream
      cases hserve
    | cons call calls =>
      -- the client's bytes of this call, and those of the calls after it
      rw [Client.stream] at hstream
      split at hstream
      · next sent out outs' hsend hlater =>
        cases hstream
        have hparams := params_lt_of_send hsend
        obtain ⟨psize, hsend'⟩ := Client.send_eq hparams
        rw [hsend', Option.some.injEq, Prod.mk.injEq] at hsend
        obtain ⟨-, rfl⟩ := hsend
        have hknown : known call.name = true := by
          by_contra hunknown
          rw [List.append_assoc, readRequest_unknown info (Bool.eq_false_iff.mpr hunknown)] at hserve
          cases hserve
        obtain ⟨read, hread, hreadParams, hreadName⟩ := readRequest_framed info hknown 0 hparams outs'
        rw [← List.append_assoc] at hread
        have hrequest : readRequest known info
            (call.info.header.bytes ++ framed call.params ++ outs') = some (read, outs') := hread
        rw [hrequest, serveRead] at hserve
        dsimp only at hserve
        split at hserve
        · cases hserve
        · next info' out hanswer =>
          have hresult := result_lt_of_answer hanswer
          obtain ⟨info'', hanswer'⟩ := answer_eq read hresult
          rw [hanswer', Option.some.injEq, Prod.mk.injEq] at hanswer
          obtain ⟨-, rfl⟩ := hanswer
          obtain ⟨⟨requests', outs, rest'⟩, hserve', heq⟩ := Option.map_eq_some_iff.mp hserve
          cases heq
          obtain ⟨rfl, rfl, hlen, hresults⟩ :=
            ih hlater hserve'
          rw [hreadName, hreadParams]
          exact ⟨rfl, rfl, Nat.succ_le_succ hlen, List.forall_mem_cons.mpr ⟨hresult, hresults⟩⟩
      · cases hstream

/-- The calls that a client makes are given to the callbacks in their order, each one once and as it was
made. The client gets the answers in the same order, and all of those that have been made when the
server waits for its next request. -/
structure Serves (s : RpcServer) (c : Nat) (calls : List Client.Call) : Prop where
  requests : (s.conn c).requests =
    (calls.take (s.conn c).answers.length).map fun call => (call.name, call.params)
  output : (s.conn c).output <+: replies calls (s.conn c).answers
  complete : ∀ op ∈ s.outstanding, op.conn = c → op.stage = .header →
    (s.conn c).output = replies calls (s.conn c).answers

/-- **Connections.** In every run, whatever happens on the other connections, a connection does what the
sequential server does with its bytes; when these come from calls, it serves the calls, up to the first
one whose name is not registered. -/
theorem connection_served {events : List ServerEvent}
    (h : Run (step lookup) (fun _ e => Answers e) {} events s) (hc : c < s.conns.length) :
    Follows lookup (s.conn c) ∧
      ∀ (calls : List Client.Call) (bytes : List UInt8), Client.stream calls = some bytes →
        (s.conn c).received <+: bytes → s.Serves c calls := by
  have hconforms := run_conforms h
  have hfollows := hconforms.follows c hc
  refine ⟨hfollows, ?_⟩
  rintro calls bytes hstream ⟨more, rfl⟩
  obtain ⟨outs, rest, hserve, hout⟩ := hfollows more
  obtain ⟨hrequests, rfl, -, -⟩ := serve_stream (s.conn c).answers hstream hserve
  refine ⟨hrequests, hout, fun op hop hopc hheader => ?_⟩
  have hstage := hconforms.ops op hop
  rw [hopc, hheader] at hstage
  obtain ⟨rest, hsent⟩ := Reads.sent hstage more
  exact (serve_stream (s.conn c).answers hstream hsent).2.1

/-- The call of the first connection is served while the second one is. -/
theorem connection_served_two_connections :
    ∃ s, Run (step lookupOne) (fun _ e => Answers e) {} twoConnections s ∧ s.Serves 0 [firstCall] ∧
      (s.conn 0).requests = [(1, [⟨[4], by decide⟩])] := by
  have h : Run (step lookupOne) (fun _ e => Answers e) {} twoConnections _ :=
    Run.of_isSome {} (by decide +kernel)
  refine ⟨_, h, (connection_served h (c := 0) (by decide +kernel)).2 [firstCall] _
    (eq_some_getD [] (by decide +kernel)) (by decide +kernel), by decide +kernel⟩

end RpcServer

end BlobSeer
