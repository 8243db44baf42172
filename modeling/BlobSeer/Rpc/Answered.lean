import BlobSeer.Rpc.Serving
import Mathlib.Data.Nat.Find

/-!
# Calls from end to end

The client that has made the calls of a connection reads what the server has sent so far. Bytes that come
later do not change what was read (`Client.readAnswer_more`), and an answer that is cut off is always
noticed (`Client.readAnswer_none`). So when the connection ends at any time, the callbacks of the client
have been given what the callbacks of the server have left for the same calls, and one more call fails
unless all of them were answered (`calls_answered`).
-/

namespace BlobSeer.Rpc.Client

/-- A call that was answered is not changed by what comes behind its answer. -/
theorem answerLoop_more {n : Nat} : ∀ {index : Nat} {info info' : RpcInfo} {input rest : List UInt8},
    answerLoop n index info input = (info', some rest) → ∀ more,
      answerLoop n index info (input ++ more) = (info', some (rest ++ more)) := by
  induction n with
  | zero =>
    intro index info info' input rest h more
    cases h
    rfl
  | succ n ih =>
    intro index info info' input rest h more
    rw [answerLoop] at h ⊢
    cases hsize : readSize input with
    | none =>
      rw [hsize] at h
      cases h
    | some size =>
      obtain ⟨psize, input⟩ := size
      rw [hsize] at h
      rw [readSize_more hsize]
      dsimp only at h ⊢
      split at h
      · cases h
      · next hfits =>
        rw [if_neg hfits]
        cases hbuffer : readBuffer psize input with
        | none =>
          rw [hbuffer] at h
          cases h
        | some read =>
          obtain ⟨buffer, input⟩ := read
          rw [hbuffer] at h
          rw [readBuffer_more hbuffer]
          exact ih h more

/-- A call that was not answered to its end fails. -/
theorem answerLoop_none {n : Nat} : ∀ {index : Nat} {info info' : RpcInfo} {input : List UInt8},
    answerLoop n index info input = (info', none) → info'.header.status = invalidArgument := by
  induction n with
  | zero =>
    intro index info info' input h
    cases h
  | succ n ih =>
    intro index info info' input h
    rw [answerLoop] at h
    split at h
    · cases h
      rfl
    · dsimp only at h
      split at h
      · cases h
        rfl
      · split at h
        · cases h
          rfl
        · exact ih h

theorem readAnswer_more {info info' : RpcInfo} {input rest : List UInt8}
    (h : readAnswer info input = (info', some rest)) (more : List UInt8) :
    readAnswer info (input ++ more) = (info', some (rest ++ more)) := by
  rw [readAnswer] at h ⊢
  cases hheader : readHeader input with
  | none =>
    rw [hheader] at h
    cases h
  | some read =>
    obtain ⟨header, input⟩ := read
    rw [hheader] at h
    rw [readHeader_more hheader]
    exact answerLoop_more h more

theorem readAnswer_none {info info' : RpcInfo} {input : List UInt8}
    (h : readAnswer info input = (info', none)) : info'.header.status = invalidArgument := by
  rw [readAnswer] at h
  split at h
  · cases h
    rfl
  · exact answerLoop_none h

open Server (answerBytes)
open RpcServer (replies)

theorem replies_cons (c : Call) (calls : List Call) (a : Int32 × List Buffer)
    (answers : List (Int32 × List Buffer)) :
    replies (c :: calls) (a :: answers) = answerBytes c.name a ++ replies calls answers := rfl

/-- All the answers fit into the buffers that the calls have for them. -/
def AllFit (calls : List Call) (answers : List (Int32 × List Buffer)) : Prop :=
  ∀ e ∈ calls.zip answers, e.1.Fits e.2.2

instance (calls : List Call) (answers : List (Int32 × List Buffer)) : Decidable (AllFit calls answers) :=
  inferInstanceAs (Decidable (∀ e ∈ calls.zip answers, ∀ i < e.2.2.length, e.1.FitsAt e.2.2 i))

/-- All answers are there. -/
theorem receive_replies {calls : List Call} (hparams : ∀ c ∈ calls, c.params.length < 2 ^ 32) :
    ∀ {answers : List (Int32 × List Buffer)}, (∀ a ∈ answers, a.2.length < 2 ^ 32) →
      calls.length = answers.length → AllFit calls answers →
      receive calls (replies calls answers) = (answers, some []) := by
  induction calls with
  | nil =>
    intro answers _ hlen _
    rw [List.eq_nil_of_length_eq_zero hlen.symm]
    rfl
  | cons c calls ih =>
    intro answers hresults hlen hfits
    cases answers with
    | nil => cases hlen
    | cons a answers =>
      have hrest := ih (fun d hd => hparams d (List.mem_cons_of_mem _ hd))
        (fun b hb => hresults b (List.mem_cons_of_mem _ hb)) (Nat.succ.inj hlen)
        fun e he => hfits e (List.mem_cons_of_mem _ he)
      rw [replies_cons, receive_fits (hparams c List.mem_cons_self) (hresults a List.mem_cons_self)
        (hfits (c, a) List.mem_cons_self), hrest]

/-- An answer that was read has fitted. -/
theorem fits_of_readAnswer {c : Call} {a : Int32 × List Buffer} (hlen : a.2.length < 2 ^ 32)
    {psize name : UInt32} {behind rest : List UInt8} {info : RpcInfo}
    (h : readAnswer (c.info.setPsize psize) (answerBytes name a ++ behind) = (info, some rest)) :
    c.Fits a.2 := by
  by_contra hnot
  rw [Call.Fits, not_forall] at hnot
  have hex : ∃ i, i < a.2.length ∧ ¬ c.FitsAt a.2 i := by
    obtain ⟨i, hi⟩ := hnot
    exact ⟨i, Classical.not_imp.mp hi⟩
  -- the first result that does not fit
  obtain ⟨hi, hmisfit⟩ := Nat.find_spec hex
  have hbefore : ∀ j < Nat.find hex, c.FitsAt a.2 j := by
    intro j hj
    by_contra hj'
    exact Nat.find_min hex hj ⟨hj.trans hi, hj'⟩
  obtain ⟨info', hread, -, -⟩ := readAnswer_misfit hlen psize name behind hi hbefore hmisfit
  rw [h] at hread
  cases hread

/-- The answers end somewhere, or one does not fit. -/
theorem receive_prefix {calls : List Call} (hparams : ∀ c ∈ calls, c.params.length < 2 ^ 32) :
    ∀ {answers : List (Int32 × List Buffer)} {input : List UInt8},
      (∀ a ∈ answers, a.2.length < 2 ^ 32) → answers.length ≤ calls.length →
      input <+: replies calls answers →
      receive calls input = (answers, some []) ∨ ∃ k ≤ answers.length, ∃ a : Int32 × List Buffer,
        a.1 = invalidArgument ∧ receive calls input = (answers.take k ++ [a], none) := by
  induction calls with
  | nil =>
    intro answers input _ hlen hprefix
    have hnil : answers = [] := List.eq_nil_of_length_eq_zero (Nat.le_zero.mp hlen)
    subst hnil
    rw [List.prefix_nil.mp hprefix]
    exact .inl rfl
  | cons c calls ih =>
    intro answers input hresults hlen hprefix
    obtain ⟨psize, hsend⟩ := send_eq (hparams c List.mem_cons_self)
    rw [receive, hsend]
    dsimp only
    -- what the client makes of the first answer
    cases hread : readAnswer (c.info.setPsize psize) input with
    | mk info rest =>
    cases rest with
    | none => exact .inr ⟨0, Nat.zero_le _, _, readAnswer_none hread, rfl⟩
    | some rest =>
      cases answers with
      | nil =>
        rw [List.prefix_nil.mp hprefix] at hread
        cases hread
      | cons a answers =>
        obtain ⟨more, hmore⟩ := hprefix
        have hall := readAnswer_more hread more
        rw [hmore, replies_cons] at hall
        have hresult := hresults a List.mem_cons_self
        have hfits := fits_of_readAnswer hresult hall
        obtain ⟨info', hread', hstatus, hbuffers⟩ :=
          readAnswer_fits hresult psize c.name (replies calls answers) hfits
        rw [hall, Prod.mk.injEq, Option.some.injEq] at hread'
        obtain ⟨rfl, hrest⟩ := hread'
        dsimp only
        rw [hstatus, hbuffers]
        have hlater := ih (fun d hd => hparams d (List.mem_cons_of_mem _ hd))
          (fun b hb => hresults b (List.mem_cons_of_mem _ hb)) (Nat.le_of_succ_le_succ hlen)
          ⟨more, hrest⟩
        rcases hlater with hall | ⟨k, hk, b, hb, hfail⟩
        · rw [hall]
          exact .inl rfl
        · rw [hfail]
          exact .inr ⟨k + 1, Nat.succ_le_succ hk, b, hb, rfl⟩

theorem params_lt_of_stream {calls : List Call} : ∀ {bytes : List UInt8}, stream calls = some bytes →
    ∀ c ∈ calls, c.params.length < 2 ^ 32 := by
  induction calls with
  | nil => exact fun _ => List.forall_mem_nil _
  | cons c calls ih =>
    intro bytes h
    rw [stream] at h
    split at h
    · next hsend hlater =>
      exact List.forall_mem_cons.mpr ⟨RpcServer.params_lt_of_send hsend, ih hlater⟩
    · cases h

end BlobSeer.Rpc.Client

namespace BlobSeer

open Lib Rpc Rpc.Server

namespace RpcServer

variable {lookup : UInt32 → Option CallbackKind} {s : RpcServer} {c : Nat}

/-- What the client of a connection gets when the connection ends now: the calls that the server's
callbacks were given are those of the client, and the client's callbacks get what these have left for
them. Then one call fails, unless all of them were answered. -/
structure Answered (x : RpcConnection) (calls : List Client.Call) : Prop where
  requests : x.requests = (calls.take x.answers.length).map fun call => (call.name, call.params)
  received : Client.receive calls x.output = (x.answers, some []) ∨
    ∃ k ≤ x.answers.length, ∃ a : Int32 × List Rpc.Buffer, a.1 = invalidArgument ∧
      Client.receive calls x.output = (x.answers.take k ++ [a], none)

/-- **Calls from end to end.** In every run of the server, whatever happens on the other connections and
wherever the connection ends, the client gets the answers of its own calls, in their order, and then at
most one failure. There is none when the server waits for a request after it has answered all calls, and
the answers fit into the client's buffers. -/
theorem calls_answered {events : List ServerEvent}
    (h : Run (step lookup) (fun _ e => Answers e) {} events s) (hc : c < s.conns.length)
    {calls : List Client.Call} {bytes : List UInt8} (hstream : Client.stream calls = some bytes)
    (hreceived : (s.conn c).received <+: bytes) :
    Answered (s.conn c) calls ∧ ∀ op ∈ s.outstanding, op.conn = c → op.stage = .header →
      calls.length = (s.conn c).answers.length → Client.AllFit calls (s.conn c).answers →
      Client.receive calls (s.conn c).output = ((s.conn c).answers, some []) := by
  obtain ⟨more, rfl⟩ := hreceived
  have hconforms := run_conforms h
  have hparams := Client.params_lt_of_stream hstream
  obtain ⟨outs, rest, hserve, hout⟩ := hconforms.follows c hc more
  obtain ⟨hrequests, rfl, hlen, hresults⟩ := serve_stream (s.conn c).answers hstream hserve
  refine ⟨⟨hrequests, Client.receive_prefix hparams hresults hlen hout⟩, ?_⟩
  intro op hop hopc hheader hall hfit
  have hstage := hconforms.ops op hop
  rw [hopc, hheader] at hstage
  obtain ⟨rest, hsent⟩ := Reads.sent hstage more
  rw [(serve_stream (s.conn c).answers hstream hsent).2.1]
  exact Client.receive_replies hparams hresults hall hfit

/-- The first client has its answer, and the second one's connection may end where it likes. -/
theorem calls_answered_two_connections :
    ∃ s, Run (step lookupOne) (fun _ e => Answers e) {} twoConnections s ∧
      Client.receive [firstCall] (s.conn 0).output = ((s.conn 0).answers, some []) ∧
      (s.conn 0).answers.map Prod.fst = [7] ∧ Answered (s.conn 1) [secondCall] := by
  have h : Run (step lookupOne) (fun _ e => Answers e) {} twoConnections _ :=
    Run.of_isSome {} (by decide +kernel)
  have hstream : ∀ call ∈ [firstCall, secondCall],
      Client.stream [call] = some ((Client.stream [call]).getD []) := by decide +kernel
  have hfirst := (calls_answered h (c := 0) (by decide +kernel) (hstream firstCall (by simp))
    (by decide +kernel)).2 ⟨0, .header, true⟩ (by decide +kernel) rfl rfl
    (by decide +kernel) (by decide +kernel)
  have hsecond := (calls_answered h (c := 1) (by decide +kernel) (hstream secondCall (by simp))
    (by decide +kernel)).1
  exact ⟨_, h, hfirst, by decide +kernel, hsecond⟩

end RpcServer

end BlobSeer
