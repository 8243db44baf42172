import BlobSeer.Rpc.Framing

/-!
# The framing of calls over a reused connection

A message is read back as it was sent, whatever is left in the `rpcinfo_t` of the reader from the
message before. So the server gets the requests of a connection as they were made, and the client
gets the answers as they were given, unless a result does not fit into the buffer that the caller has
supplied for it: such a call ends with an error, and no buffer is filled in part
(`framing_round_trip`).

The number of parameters is announced in 32 bits. A request with `2 ^ 32` parameters or more is never
sent to its end, and the server takes it for another one (`framing_too_many_params`).
-/

namespace BlobSeer.Rpc

/-! ## Messages -/

/-- The buffers of a message, each one after its size. -/
def framed (buffers : List Buffer) : List UInt8 :=
  buffers.flatMap fun b => u32Bytes b.size ++ b.content

@[simp] theorem framed_cons (b : Buffer) (buffers : List Buffer) (rest : List UInt8) :
    framed (b :: buffers) ++ rest =
      u32Bytes b.size ++ (b.content ++ (framed buffers ++ rest)) := by
  simp only [framed, List.flatMap_cons, List.append_assoc]

theorem sendLoop_drop {buffers : List Buffer} (hlen : buffers.length < 2 ^ 32) :
    ∀ (n index : Nat) (psize : UInt32), index + n = buffers.length →
      ∃ psize', sendLoop buffers (n + 1) index psize = some (psize', framed (buffers.drop index)) := by
  intro n
  induction n with
  | zero =>
    intro index psize hn
    refine ⟨psize, ?_⟩
    rw [sendLoop, if_neg (by omega), List.drop_of_length_le (by omega)]
    rfl
  | succ n ih =>
    intro index psize hn
    have hlt : index < buffers.length := by omega
    obtain ⟨psize', hloop⟩ := ih (index + 1) (buffers.getD index .empty).size (by omega)
    refine ⟨psize', ?_⟩
    rw [sendLoop, if_pos hlt, u32_of_lt (by omega)]
    simp only [hloop, Option.map_some]
    have hbuffer : buffers.getD index .empty = buffers[index] := by simp [hlt]
    rw [List.drop_eq_getElem_cons hlt, hbuffer]
    simp only [framed, List.flatMap_cons, List.append_assoc]

/-- The index of a loop over `2 ^ 32` buffers or more wraps around before it gets to the end. -/
theorem sendLoop_none {buffers : List Buffer} (hlen : 2 ^ 32 ≤ buffers.length) :
    ∀ (fuel : Nat) {index : Nat} (psize : UInt32), index < 2 ^ 32 →
      sendLoop buffers fuel index psize = none := by
  intro fuel
  induction fuel with
  | zero => exact fun _ _ => rfl
  | succ fuel ih =>
    intro index psize hindex
    have hnext : u32 (index + 1) < 2 ^ 32 := Nat.mod_lt _ (Nat.two_pow_pos 32)
    rw [sendLoop, if_pos (by omega)]
    dsimp only
    rw [ih _ hnext, Option.map_none]

theorem sendMessage_eq (header : Header) {buffers : List Buffer} (hlen : buffers.length < 2 ^ 32) :
    ∃ psize, sendMessage header buffers = some (psize, header.bytes ++ framed buffers) := by
  obtain ⟨psize, hloop⟩ := sendLoop_drop hlen buffers.length 0 header.psize (Nat.zero_add _)
  refine ⟨psize, ?_⟩
  simp only [sendMessage, hloop, Option.map_some, List.drop_zero]

theorem resize_length (l : List Buffer) (n : Nat) : (resize l n).length = n := by
  rw [resize, List.length_append, List.length_take, List.length_replicate]
  omega

theorem toNat_ofNat_length {buffers : List Buffer} (hlen : buffers.length < 2 ^ 32) :
    (UInt32.ofNat buffers.length).toNat = buffers.length := by
  rw [UInt32.toNat_ofNat', Nat.mod_eq_of_lt hlen]

/-! ## The server -/

namespace Server

/-- The parameters are read into their places; what was there before is gone. -/
theorem paramLoop_framed : ∀ (params before : List Buffer) {old : List Buffer} (info : RpcInfo)
    (rest : List UInt8), old.length = params.length → info.params = before ++ old →
      ∃ info', paramLoop params.length before.length info (framed params ++ rest) =
          some (info', rest) ∧
        info'.params = before ++ params ∧ info'.header.name = info.header.name := by
  intro params
  induction params with
  | nil =>
    intro before old info rest hold hinfo
    rw [List.eq_nil_of_length_eq_zero hold] at hinfo
    exact ⟨info, rfl, hinfo, rfl⟩
  | cons param params ih =>
    intro before old info rest hold hinfo
    obtain ⟨x, old, rfl⟩ := List.exists_cons_of_length_eq_add_one hold
    have hset : (info.setPsize param.size).params.set before.length param =
        (before ++ [param]) ++ old := by
      show info.params.set before.length param = _
      rw [hinfo]
      simp
    obtain ⟨info', hloop, hparams, hname⟩ := ih (before ++ [param])
      { info.setPsize param.size with
        params := (info.setPsize param.size).params.set before.length param }
      rest (Nat.succ.inj hold) hset
    refine ⟨info', ?_, ?_, hname⟩
    · rw [List.length_append, List.length_singleton] at hloop
      rw [List.length_cons, framed_cons, paramLoop, readSize_append]
      dsimp only
      rw [readBuffer_append]
      exact hloop
    · rw [hparams, List.append_assoc]
      rfl

theorem readRequest_framed {registered : UInt32 → Bool} (info : RpcInfo) {name : UInt32}
    (hname : registered name = true) (status : Int32) {params : List Buffer}
    (hlen : params.length < 2 ^ 32) (rest : List UInt8) :
    ∃ info', readRequest registered info
        ((⟨name, .ofNat params.length, status⟩ : Header).bytes ++ (framed params ++ rest)) =
          some (info', rest) ∧
      info'.params = params ∧ info'.header.name = name := by
  have hresize : (resize info.params (UInt32.ofNat params.length).toNat).length =
      params.length := by
    rw [resize_length, toNat_ofNat_length hlen]
  obtain ⟨info', hloop, hparams, hinfo⟩ := paramLoop_framed params []
    { info with
      header := ⟨name, .ofNat params.length, status⟩
      params := resize info.params (UInt32.ofNat params.length).toNat } rest hresize rfl
  refine ⟨info', ?_, hparams, hinfo⟩
  rw [readRequest, readHeader_append]
  dsimp only
  rw [if_pos hname, hresize]
  exact hloop

/-- A request under a name that is not registered is not read any further. -/
theorem readRequest_unknown {registered : UInt32 → Bool} (info : RpcInfo) {header : Header}
    (hname : registered header.name = false) (rest : List UInt8) :
    readRequest registered info (header.bytes ++ rest) = none := by
  rw [readRequest, readHeader_append]
  exact if_neg (Bool.eq_false_iff.mp hname)

/-- The bytes of an answer. -/
def answerBytes (name : UInt32) (a : Int32 × List Buffer) : List UInt8 :=
  (⟨name, .ofNat a.2.length, a.1⟩ : Header).bytes ++ framed a.2

theorem answer_eq (info : RpcInfo) {a : Int32 × List Buffer} (hlen : a.2.length < 2 ^ 32) :
    ∃ info', answer info a.1 a.2 = some (info', answerBytes info.header.name a) := by
  obtain ⟨psize, hsend⟩ :=
    sendMessage_eq { info.header with status := a.1, psize := .ofNat a.2.length } hlen
  exact ⟨_, by rw [answer, hsend, Option.map_some]; rfl⟩

end Server

/-! ## The client -/

namespace Client

/-- What is read as result `i` may go into the buffer of the call: it has none for it, or one of the
same size. -/
def Call.FitsAt (c : Call) (results : List Buffer) (i : Nat) : Prop :=
  (c.managed.getD i .empty).size = 0 ∨
    (c.managed.getD i .empty).size = (results.getD i .empty).size

instance (c : Call) (results : List Buffer) (i : Nat) : Decidable (c.FitsAt results i) := by
  unfold Call.FitsAt
  infer_instance

/-- All results may go into the buffers of the call. -/
def Call.Fits (c : Call) (results : List Buffer) : Prop :=
  ∀ i < results.length, c.FitsAt results i

theorem send_eq {c : Call} (hlen : c.params.length < 2 ^ 32) :
    ∃ psize, send c = some (c.info.setPsize psize, c.info.header.bytes ++ framed c.params) := by
  obtain ⟨psize, hsend⟩ := sendMessage_eq c.info.header hlen
  exact ⟨psize, by rw [send, hsend, Option.map_some]⟩

/-- The buffers for the results, after `resize`. -/
theorem resize_getD (l : List Buffer) {n i : Nat} (hi : i < n) :
    (resize l n).getD i .empty = l.getD i .empty := by
  rcases Nat.lt_or_ge i l.length with h | h
  · simp [resize, List.getElem?_append, h, hi]
  · have hnone := Nat.not_lt.mpr h
    simp only [resize, List.getD_eq_getElem?_getD, List.getElem?_append, List.getElem?_replicate,
      List.length_take, lt_min_iff, hnone, and_false, if_false, List.getElem?_eq_none h]
    split
    · rfl
    · rfl

/-- As long as the results fit, they are read into their places. -/
theorem answerLoop_fits : ∀ (results before buffers : List Buffer) (info : RpcInfo)
    (n : Nat) (rest : List UInt8), results.length ≤ buffers.length →
    info.result = before ++ buffers →
    (∀ i < results.length, (buffers.getD i .empty).size = 0 ∨
      (buffers.getD i .empty).size = (results.getD i .empty).size) →
      ∃ info', answerLoop (results.length + n) before.length info (framed results ++ rest) =
          answerLoop n (before.length + results.length) info' rest ∧
        info'.result = before ++ (results ++ buffers.drop results.length) ∧
        info'.header.status = info.header.status := by
  intro results
  induction results with
  | nil =>
    intro before buffers info n rest _ hinfo _
    refine ⟨info, ?_, hinfo, rfl⟩
    rw [List.length_nil, Nat.zero_add]
    rfl
  | cons result results ih =>
    intro before buffers info n rest hlen hinfo hfits
    cases buffers with
    | nil => cases hlen
    | cons buffer buffers =>
      have hbuffer : (info.setPsize result.size).result.getD before.length .empty = buffer := by
        show info.result.getD before.length .empty = buffer
        rw [hinfo]
        simp
      have hset : (info.setPsize result.size).result.set before.length result =
          (before ++ [result]) ++ buffers := by
        show info.result.set before.length result = _
        rw [hinfo]
        simp
      have hhead : ¬ (buffer.size ≠ 0 ∧ buffer.size ≠ result.size) := by
        rintro ⟨h0, h1⟩
        exact (hfits 0 (Nat.succ_pos _)).elim h0 h1
      obtain ⟨info', hloop, hresult, hstatus⟩ := ih (before ++ [result]) buffers
        { info.setPsize result.size with
          result := (info.setPsize result.size).result.set before.length result }
        n rest (Nat.le_of_succ_le_succ hlen) hset
        fun i hi => hfits (i + 1) (Nat.succ_lt_succ hi)
      refine ⟨info', ?_, ?_, hstatus⟩
      · rw [List.length_append, List.length_singleton] at hloop
        rw [List.length_cons, Nat.succ_add, framed_cons, answerLoop, readSize_append]
        dsimp only
        rw [hbuffer, if_neg hhead, readBuffer_append]
        have hindex : before.length + (results.length + 1) = before.length + 1 + results.length := by
          omega
        rw [hindex]
        exact hloop
      · rw [hresult, List.append_assoc]
        rfl

open Server (answerBytes)

section Answer

variable {c : Call} {a : Int32 × List Buffer} (hlen : a.2.length < 2 ^ 32) (psize : UInt32)
  (name : UInt32) (rest : List UInt8)

include hlen

/-- The state in which the results of an answer are read. -/
theorem readAnswer_eq : readAnswer (c.info.setPsize psize) (answerBytes name a ++ rest) =
    answerLoop a.2.length 0
      { c.info with
        header := ⟨name, .ofNat a.2.length, a.1⟩
        result := resize c.managed a.2.length } (framed a.2 ++ rest) := by
  rw [readAnswer, answerBytes, List.append_assoc, readHeader_append]
  dsimp only
  rw [toNat_ofNat_length hlen, resize_length]
  rfl

theorem readAnswer_fits (hfits : c.Fits a.2) :
    ∃ info, readAnswer (c.info.setPsize psize) (answerBytes name a ++ rest) = (info, some rest) ∧
      info.header.status = a.1 ∧ info.result = a.2 := by
  obtain ⟨info, hloop, hresult, hstatus⟩ := answerLoop_fits a.2 []
    (resize c.managed a.2.length)
    { c.info with
      header := ⟨name, .ofNat a.2.length, a.1⟩
      result := resize c.managed a.2.length } 0 rest (by rw [resize_length]) rfl
    (fun i hi => by
      rw [resize_getD _ hi]
      exact hfits i hi)
  refine ⟨info, ?_, hstatus, ?_⟩
  · rw [readAnswer_eq hlen]
    exact hloop
  · rw [hresult, List.drop_of_length_le (by rw [resize_length]), List.append_nil, List.nil_append]

/-- At the first result that does not fit, the call ends: the results before it have been read, and
its buffer and those after it are as they were. -/
theorem readAnswer_misfit {i : Nat} (hi : i < a.2.length) (hbefore : ∀ j < i, c.FitsAt a.2 j)
    (hmisfit : ¬ c.FitsAt a.2 i) :
    ∃ info, readAnswer (c.info.setPsize psize) (answerBytes name a ++ rest) = (info, none) ∧
      info.header.status = invalidArgument ∧
      info.result = a.2.take i ++ (resize c.managed a.2.length).drop i := by
  have htake : (a.2.take i).length = i := List.length_take_of_le (Nat.le_of_lt hi)
  obtain ⟨n, hn⟩ : ∃ n, a.2.length = i + (n + 1) := ⟨a.2.length - i - 1, by omega⟩
  have hframed : framed a.2 ++ rest =
      framed (a.2.take i) ++ (framed (a.2[i] :: a.2.drop (i + 1)) ++ rest) := by
    conv_lhs => rw [← List.take_append_drop i a.2]
    rw [List.drop_eq_getElem_cons hi, framed, List.flatMap_append, List.append_assoc]
    rfl
  obtain ⟨info, hloop, hresult, hstatus⟩ := answerLoop_fits (a.2.take i) []
    (resize c.managed a.2.length)
    { c.info with
      header := ⟨name, .ofNat a.2.length, a.1⟩
      result := resize c.managed a.2.length } (n + 1)
    (framed (a.2[i] :: a.2.drop (i + 1)) ++ rest) (by rw [resize_length]; omega) rfl
    (fun j hj => by
      rw [htake] at hj
      have hget : (a.2.take i).getD j .empty = a.2.getD j .empty := by
        simp [hj]
      rw [resize_getD _ (by omega), hget]
      exact hbefore j hj)
  rw [htake, List.nil_append] at hresult
  have hbuffer : info.result.getD i .empty = c.managed.getD i .empty := by
    rw [hresult, ← resize_getD c.managed hi]
    simp [List.getElem?_append, htake]
  refine ⟨(info.setPsize a.2[i].size).fail, ?_, rfl, hresult⟩
  rw [readAnswer_eq hlen, hframed]
  have hcount : (a.2.take i).length + (n + 1) = a.2.length := by
    rw [htake, hn]
  rw [hcount] at hloop
  refine hloop.trans ?_
  rw [List.length_nil, Nat.zero_add, htake, framed_cons, answerLoop, readSize_append]
  dsimp only
  rw [if_pos]
  have hgetD : a.2.getD i .empty = a.2[i] := by simp [hi]
  rw [Call.FitsAt, hgetD, not_or] at hmisfit
  show (info.result.getD i .empty).size ≠ 0 ∧ (info.result.getD i .empty).size ≠ a.2[i].size
  rw [hbuffer]
  exact hmisfit

end Answer

theorem receive_fits {c : Call} {calls : List Call} {a : Int32 × List Buffer}
    (hparams : c.params.length < 2 ^ 32) (hlen : a.2.length < 2 ^ 32) (hfits : c.Fits a.2)
    (name : UInt32) (rest : List UInt8) :
    receive (c :: calls) (answerBytes name a ++ rest) =
      (a :: (receive calls rest).1, (receive calls rest).2) := by
  obtain ⟨psize, hsend⟩ := send_eq hparams
  obtain ⟨info, hread, hstatus, hresult⟩ := readAnswer_fits hlen psize name rest hfits
  rw [receive, hsend]
  dsimp only
  rw [hread]
  dsimp only
  rw [hstatus, hresult]

theorem receive_misfit {c : Call} (calls : List Call) {a : Int32 × List Buffer}
    (hparams : c.params.length < 2 ^ 32) (hlen : a.2.length < 2 ^ 32) {i : Nat}
    (hi : i < a.2.length) (hbefore : ∀ j < i, c.FitsAt a.2 j) (hmisfit : ¬ c.FitsAt a.2 i)
    (name : UInt32) (rest : List UInt8) :
    receive (c :: calls) (answerBytes name a ++ rest) =
      ([(invalidArgument, a.2.take i ++ (resize c.managed a.2.length).drop i)], none) := by
  obtain ⟨psize, hsend⟩ := send_eq hparams
  obtain ⟨info, hread, hstatus, hresult⟩ :=
    readAnswer_misfit hlen psize name rest hi hbefore hmisfit
  rw [receive, hsend]
  dsimp only
  rw [hread]
  dsimp only
  rw [hstatus, hresult]

end Client

/-! ## A connection -/

open Client (Call)

/-- The calls `calls` on one connection, answered by `answers`, whatever the server's `rpcinfo_t` holds
at the start. The server reads the requests as they were made, to the last byte. The client reads the
answers as they were given when they all fit into the supplied buffers. Otherwise the first call with a
result that does not fit ends with an error: the results before that one are there, the other buffers
of the call are as the caller has supplied them, and the connection is closed. -/
def RoundTrip (registered : UInt32 → Bool) (calls : List Call)
    (answers : List (Int32 × List Buffer)) : Prop :=
  ∀ info, ∃ requests replies, Client.stream calls = some requests ∧
    Server.serve registered answers info requests =
      some (calls.map fun c => (c.name, c.params), replies, []) ∧
    ((∀ (k : Nat) (c : Call) a, calls[k]? = some c → answers[k]? = some a → c.Fits a.2) →
      Client.receive calls replies = (answers, some [])) ∧
    (∀ (k : Nat) (c : Call) a (i : Nat), calls[k]? = some c → answers[k]? = some a →
      (∀ k' < k, ∀ (c' : Call) a', calls[k']? = some c' → answers[k']? = some a' → c'.Fits a'.2) →
      i < a.2.length → (∀ j < i, c.FitsAt a.2 j) → ¬ c.FitsAt a.2 i →
      Client.receive calls replies = (answers.take k ++
        [(invalidArgument, a.2.take i ++ (resize c.managed a.2.length).drop i)], none))

theorem RoundTrip.nil (registered : UInt32 → Bool) : RoundTrip registered [] [] :=
  fun _ => ⟨[], [], rfl, rfl, fun _ => rfl, fun _ _ _ _ h => (nomatch h)⟩

/-- One more call in front of the others. -/
theorem RoundTrip.cons {registered : UInt32 → Bool} {calls : List Call}
    {answers : List (Int32 × List Buffer)} (h : RoundTrip registered calls answers) {c : Call}
    (hname : registered c.name = true) (hc : c.params.length < 2 ^ 32) {a : Int32 × List Buffer}
    (ha : a.2.length < 2 ^ 32) : RoundTrip registered (c :: calls) (a :: answers) := by
  intro info
  obtain ⟨requests, -, hstream, -⟩ := h info
  -- the request is read into `info`, and the answer leaves it as `after`
  obtain ⟨psize, hsend⟩ := Client.send_eq hc
  obtain ⟨read, hread, hreadParams, hreadName⟩ :=
    Server.readRequest_framed info hname 0 hc requests
  obtain ⟨after, hanswer⟩ := Server.answer_eq read ha
  obtain ⟨requests', replies, hstream', hserve, hfits, hmisfit⟩ := h after
  rw [hstream, Option.some.injEq] at hstream'
  subst hstream'
  rw [hreadName] at hanswer
  refine ⟨(c.info.header.bytes ++ framed c.params) ++ requests,
    Server.answerBytes c.name a ++ replies, ?_, ?_, ?_, ?_⟩
  · rw [Client.stream, hsend, hstream]
  · rw [List.append_assoc]
    have hread : Server.readRequest registered info
        (c.info.header.bytes ++ (framed c.params ++ requests)) = some (read, requests) := hread
    rw [Server.serve, hread]
    dsimp only
    rw [hanswer]
    dsimp only
    rw [hserve, Option.map_some, hreadName, hreadParams]
    rfl
  · intro hall
    rw [Client.receive_fits hc ha (hall 0 c a rfl rfl),
      hfits fun k c' a' hc' ha' => hall (k + 1) c' a' hc' ha']
  · intro k c' a' i hc' ha' hbefore hi hprefix hmis
    cases k with
    | zero =>
      cases hc'
      cases ha'
      exact Client.receive_misfit calls hc ha hi hprefix hmis _ _
    | succ k =>
      rw [Client.receive_fits hc ha (hbefore 0 (Nat.succ_pos k) c a rfl rfl),
        hmisfit k c' a' i hc' ha'
          (fun k' hk' => hbefore (k' + 1) (Nat.succ_lt_succ hk')) hi hprefix hmis]
      rfl

/-- **Framing.** Requests and answers with fewer than `2 ^ 32` parameters and results go over a
connection unchanged. -/
theorem framing_round_trip {registered : UInt32 → Bool} {calls : List Call}
    {answers : List (Int32 × List Buffer)} (hlength : calls.length = answers.length)
    (hname : ∀ c ∈ calls, registered c.name = true)
    (hparams : ∀ c ∈ calls, c.params.length < 2 ^ 32)
    (hresults : ∀ a ∈ answers, a.2.length < 2 ^ 32) : RoundTrip registered calls answers := by
  induction calls generalizing answers with
  | nil =>
    rw [List.eq_nil_of_length_eq_zero hlength.symm]
    exact RoundTrip.nil registered
  | cons c calls ih =>
    obtain ⟨a, answers, rfl⟩ := List.exists_cons_of_length_eq_add_one hlength.symm
    have htail := ih (Nat.succ.inj hlength) (fun c hc => hname c (List.mem_cons_of_mem _ hc))
      (fun c hc => hparams c (List.mem_cons_of_mem _ hc))
      fun a ha => hresults a (List.mem_cons_of_mem _ ha)
    exact htail.cons (hname c List.mem_cons_self) (hparams c List.mem_cons_self)
      (hresults a List.mem_cons_self)

/-- Two calls on one connection: the second has an empty parameter and a managed buffer of two bytes,
for which the server returns three. -/
def twoCalls : List Call :=
  [⟨1, [⟨[5, 6], by decide⟩], []⟩, ⟨2, [.empty], [⟨[0, 0], by decide⟩]⟩]

def twoAnswers : List (Int32 × List Buffer) :=
  [(0, [⟨[7], by decide⟩, .empty]), (0, [⟨[8, 9, 10], by decide⟩])]

/-- The first call gets its answer; the second ends with an error, and its buffer is not touched. -/
theorem framing_round_trip_two_calls :
    RoundTrip (fun _ => true) twoCalls twoAnswers ∧
      ∃ replies, Client.receive twoCalls replies =
        ([(0, [⟨[7], by decide⟩, .empty]), (invalidArgument, [⟨[0, 0], by decide⟩])], none) := by
  have h : RoundTrip (fun _ => true) twoCalls twoAnswers :=
    framing_round_trip rfl (fun _ _ => rfl) (by decide) (by decide)
  obtain ⟨requests, replies, -, -, -, hmisfit⟩ := h ⟨[], [], ⟨0, 0, 0⟩⟩
  refine ⟨h, replies, ?_⟩
  have hfirst : ∀ i < 2, ∀ c ∈ twoCalls[0]?, ∀ a ∈ twoAnswers[0]?, Client.Call.FitsAt c a.2 i := by
    decide
  refine hmisfit 1 _ _ 0 rfl rfl ?_ (by decide) (fun j hj => absurd hj (Nat.not_lt_zero j))
    (by decide)
  intro k hk c a hc ha i hi
  obtain rfl : k = 0 := by omega
  cases hc
  cases ha
  exact hfirst i hi _ rfl _ rfl

/-- A request with `2 ^ 32` empty parameters. The client does not get to the end of it, and the server
runs the callback without parameters as soon as it has the header. -/
theorem framing_too_many_params :
    ¬ RoundTrip (fun _ => true) [⟨1, List.replicate (2 ^ 32) .empty, []⟩] [(0, [])] ∧
      ∃ info, Server.readRequest (fun _ => true) ⟨[], [], ⟨0, 0, 0⟩⟩
        (Call.info ⟨1, List.replicate (2 ^ 32) .empty, []⟩).header.bytes = some (info, []) ∧
        info.header.name = 1 ∧ info.params = [] := by
  refine ⟨?_, ?_⟩
  · intro h
    obtain ⟨requests, -, hstream, -⟩ := h ⟨[], [], ⟨0, 0, 0⟩⟩
    have hsend : Client.send ⟨1, List.replicate (2 ^ 32) .empty, []⟩ = none := by
      rw [Client.send, sendMessage, sendLoop_none (by rw [List.length_replicate]) _ _ (by decide)]
      rfl
    rw [Client.stream, hsend] at hstream
    cases hstream
  · have hcount : UInt32.ofNat (List.replicate (2 ^ 32) Buffer.empty).length = 0 := by
      rw [List.length_replicate]
      rfl
    have hheader : (Call.info ⟨1, List.replicate (2 ^ 32) .empty, []⟩).header = ⟨1, 0, 0⟩ := by
      rw [Call.info, hcount]
    rw [hheader]
    exact ⟨⟨[], [], ⟨1, 0, 0⟩⟩, by decide, rfl, rfl⟩

end BlobSeer.Rpc
