import JftermMuxer.Daemon.Delivery
import JftermMuxer.Daemon.Reader

/-!
# The control conversation

{lit}`run` of {lit}`jftermd/src/server.rs` hands every connection to
{lit}`dispatch_connection`, which asks the kernel for the peer and reads one frame.
{lit}`handle_control` answers a HELLO, and from then on each LIST.  Bytes come in by
reads and go out by writes; both can end at any byte.

Main results:

- Theorem {lit}`readOneFrame_some`: a frame that is read is the first one of the stream,
  and the rest of the stream stays behind it.
- Theorem {lit}`serve_bytes`: what is written is a function of the bytes sent: the
  encoded replies, up to the write that failed.
- Theorem {lit}`control_conversation`: what the peer decodes of it.
-/

namespace JftermMuxer.Daemon

open JftermMuxer.Foundation

/-! ## Writes -/

/-- How `write_all` ends: with all bytes written, or with an error after some of them. -/
abbrev WriteAnswer := Except (Nat × Errno) Unit

/-- What the surroundings answer to a control connection: the sessions collected for its
{lit}`n`-th frame, and how the write of that frame ends. -/
structure Surroundings where
  lists : Nat → List SessionInfo
  writes : Nat → WriteAnswer

/-- Why the task of a connection ended early. -/
inductive ServeError where
  | denied (text : String)
  | conn (e : ConnError)
deriving DecidableEq, Repr

/-- Write one frame. -/
def writeFrame (answer : WriteAnswer) (f : Frame) : List UInt8 × Except ServeError Unit :=
  match answer with
  | .ok () => (f.encode, .ok ())
  | .error (n, e) => (f.encode.take n, .error (.conn (.failed e)))

/-! ## Reads -/

/-- A frame that is read is the first one of the stream. -/
theorem readOneFrame_some {d d' : FrameDecoder} {answers answers' : List ReadAnswer} {f : Frame}
    (h : readOneFrame d answers = (.ok (some f), d', answers')) :
    decodeFrame (d.unread ++ received answers) = .frame f (d'.unread ++ received answers') := by
  induction answers generalizing d with
  | nil =>
      rw [readOneFrame] at h
      rcases hnext : d.nextFrame with ⟨_ | _ | g, d₁⟩
      · rw [hnext] at h
        cases h
      · rw [hnext] at h
        cases h
      · rw [hnext] at h
        cases h
        exact decodeFrame_append_frame (FrameDecoder.decodeFrame_of_some hnext) _
  | cons answer answers ih =>
      rw [readOneFrame] at h
      rcases hnext : d.nextFrame with ⟨_ | _ | g, d₁⟩
      · rw [hnext] at h
        cases h
      · rw [hnext] at h
        rcases answer with e | bytes
        · cases h
        · cases bytes with
          | nil => cases h
          | cons b bs =>
              have hlater := ih h
              rw [FrameDecoder.unread_push, (FrameDecoder.decodeFrame_of_none hnext).2,
                List.append_assoc] at hlater
              exact hlater
      · rw [hnext] at h
        cases h
        exact decodeFrame_append_frame (FrameDecoder.decodeFrame_of_some hnext) _

/-- Each frame that is read makes the stream shorter. -/
theorem length_readOneFrame {d d' : FrameDecoder} {answers answers' : List ReadAnswer} {f : Frame}
    (h : readOneFrame d answers = (.ok (some f), d', answers')) :
    (d'.unread ++ received answers').length < (d.unread ++ received answers).length :=
  framing.length_lt_of_decode encode_ne_nil (readOneFrame_some h)

/-- Where no frame is read there is none. -/
theorem frames_of_readOneFrame {d : FrameDecoder} {answers : List ReadAnswer}
    (h : ∀ f, (readOneFrame d answers).1 ≠ .ok (some f)) :
    framing.frames (d.unread ++ received answers) = [] := by
  cases hdecode : decodeFrame (d.unread ++ received answers) with
  | more => exact framing.frames_of_more hdecode
  | malformed e => exact framing.frames_of_malformed hdecode
  | frame f rest =>
      obtain ⟨d', answers', hread, -⟩ := readOneFrame_frame hdecode
      exact absurd (congrArg Prod.fst hread) (h f)

/-! ## The connection -/

/-- Is the peer the daemon's own user? -/
def checkPeerUid (peer : Except Errno Nat) (me : Nat) : Except ServeError Unit :=
  match peer with
  | .error e => .error (.conn (.failed e))
  | .ok uid =>
      if uid ≠ me then
        .error (.denied ("rejecting connection from uid " ++ toString uid ++
          " (daemon uid " ++ toString me ++ ")"))
      else .ok ()

section Control

variable (serde : Serde) (env : Surroundings)

/-- The loop of {lit}`handle_control`; {lit}`n` frames have been written. -/
def controlLoop (n : Nat) (d : FrameDecoder) (answers : List ReadAnswer) :
    List UInt8 × Except ServeError Unit :=
  match _hread : readOneFrame d answers with
  | (.error e, _, _) => ([], .error (.conn e))
  | (.ok none, _, _) => ([], .ok ())
  | (.ok (some frame), d', answers') =>
      if frame.ty = .list then
        match writeFrame (env.writes n) (sessionsFrame serde (env.lists n)) with
        | (bytes, .error e) => (bytes, .error e)
        | (bytes, .ok ()) =>
            let rest := controlLoop (n + 1) d' answers'
            (bytes ++ rest.1, rest.2)
      else controlLoop n d' answers'
termination_by (d.unread ++ received answers).length
decreasing_by
  · exact length_readOneFrame _hread
  · exact length_readOneFrame _hread

/-- A control connection, from its HELLO on. -/
def handleControl (hello : Frame) (d : FrameDecoder) (answers : List ReadAnswer) :
    List UInt8 × Except ServeError Unit :=
  match serde.hello hello.payload with
  | none => ([], .error (.conn .json))
  | some value =>
      if value.protoVersion ≠ protoVersion then ([], .ok ())
      else
        match writeFrame (env.writes 0) (helloOkFrame serde ownHello) with
        | (bytes, .error e) => (bytes, .error e)
        | (bytes, .ok ()) =>
            let rest := controlLoop serde env 1 d answers
            (bytes ++ rest.1, rest.2)

/-- What a connection's task has done when it ends: the bytes written by
{lit}`handle_control`, the channel that a session connection was bound to with the
commands delivered there, and the result. -/
structure Served where
  bytes : List UInt8
  bound : Option (ChannelId × List SessionCommand)
  ended : Except ServeError Unit

/-- The task of one connection. -/
def serve (accepts : Accepts) (registry : Registry) (fresh : ChannelId) (outTx : ClientId)
    (peer : Except Errno Nat) (me : Nat) (answers : List ReadAnswer) : Served :=
  match checkPeerUid peer me with
  | .error e => ⟨[], none, .error e⟩
  | .ok () =>
      match dispatchConnection serde.json accepts registry fresh outTx answers with
      | .error e => ⟨[], none, .error (.conn e)⟩
      | .ok (.control hello d answers) =>
          let handled := handleControl serde env hello d answers
          ⟨handled.1, none, handled.2⟩
      | .ok (.session bound) => ⟨[], bound, .ok ()⟩
      | .ok .closed | .ok (.unexpected _) => ⟨[], none, .ok ()⟩

/-! ## The replies -/

/-- One SESSIONS for each LIST, the first of them the {lit}`n`-th frame written. -/
def listReplies (n : Nat) (requests : List Frame) : List Frame :=
  (List.range (requests.countP fun f => f.ty = .list)).map fun k =>
    sessionsFrame serde (env.lists (n + k))

/-- The replies to the frames of a connection. -/
def repliesTo : List Frame → List Frame
  | [] => []
  | first :: requests =>
      if first.ty = .hello ∧ (serde.hello first.payload).map Hello.protoVersion = some protoVersion then
        helloOkFrame serde ownHello :: listReplies serde env 1 requests
      else []

/-- The bytes of the frames from the {lit}`n`-th on, up to the write that fails. -/
def sent : Nat → List Frame → List UInt8
  | _, [] => []
  | n, f :: fs =>
      match env.writes n with
      | .ok () => f.encode ++ sent (n + 1) fs
      | .error (k, _) => f.encode.take k

/-- A LIST is answered. -/
theorem listReplies_list (n : Nat) {f : Frame} (hf : f.ty = .list) (requests : List Frame) :
    listReplies serde env n (f :: requests) =
      sessionsFrame serde (env.lists n) :: listReplies serde env (n + 1) requests := by
  have hcount : (f :: requests).countP (fun f => f.ty = .list) =
      requests.countP (fun f => f.ty = .list) + 1 := by
    rw [List.countP_cons]
    simp [hf]
  rw [listReplies, hcount, List.range_succ_eq_map, List.map_cons, List.map_map, listReplies]
  simp [Function.comp_def, Nat.add_assoc, Nat.add_comm 1]

/-- Any other request is not. -/
theorem listReplies_other (n : Nat) {f : Frame} (hf : f.ty ≠ .list) (requests : List Frame) :
    listReplies serde env n (f :: requests) = listReplies serde env n requests := by
  rw [listReplies, List.countP_cons]
  simp [hf, listReplies]

/-- The loop writes the replies to the frames buffered and to come. -/
theorem controlLoop_eq (n : Nat) (d : FrameDecoder) (answers : List ReadAnswer) :
    (controlLoop serde env n d answers).1 =
      sent env n (listReplies serde env n (framing.frames (d.unread ++ received answers))) := by
  induction hn : (d.unread ++ received answers).length using Nat.strong_induction_on
      generalizing n d answers with
  | h m ih =>
      subst hn
      rw [controlLoop]
      split
      · rename_i hread
        have hnone : framing.frames (d.unread ++ received answers) = [] := by
          apply frames_of_readOneFrame
          intro f hf
          rw [hread] at hf
          cases hf
        rw [hnone]
        rfl
      · rename_i hread
        have hnone : framing.frames (d.unread ++ received answers) = [] := by
          apply frames_of_readOneFrame
          intro f hf
          rw [hread] at hf
          cases hf
        rw [hnone]
        rfl
      · rename_i frame d' answers' hread
        have hshorter := length_readOneFrame hread
        rw [framing.frames_of_frame encode_ne_nil (readOneFrame_some hread)]
        by_cases hlist : frame.ty = .list
        · rw [if_pos hlist, listReplies_list serde env n hlist, sent]
          unfold writeFrame
          rcases env.writes n with ⟨k, e⟩ | ⟨⟩
          · rfl
          · exact congrArg (_ ++ ·) (ih _ hshorter (n + 1) d' answers' rfl)
        · rw [if_neg hlist, listReplies_other serde env n hlist]
          exact ih _ hshorter n d' answers' rfl

/-- A control connection writes the replies to its frames. -/
theorem handleControl_eq (hello : Frame) (hty : hello.ty = .hello) (d : FrameDecoder)
    (answers : List ReadAnswer) :
    (handleControl serde env hello d answers).1 =
      sent env 0 (repliesTo serde env (hello :: framing.frames (d.unread ++ received answers))) := by
  rw [handleControl, repliesTo]
  cases hvalue : serde.hello hello.payload with
  | none => simp [sent]
  | some value =>
      by_cases hproto : value.protoVersion = protoVersion
      · rw [if_pos ⟨hty, by simp [hproto]⟩, sent]
        simp only [hproto, ne_eq, not_true_eq_false, if_false]
        unfold writeFrame
        rcases env.writes 0 with ⟨k, e⟩ | ⟨⟩
        · rfl
        · exact congrArg (_ ++ ·) (controlLoop_eq serde env 1 d answers)
      · rw [if_neg (by simp [hproto])]
        simp [hproto, sent]

/-- Only a stream that begins with a HELLO makes a control connection, which goes on
behind that frame. -/
theorem dispatch_control (accepts : Accepts) (registry : Registry) (fresh : ChannelId)
    (outTx : ClientId) (answers : List ReadAnswer) :
    (∃ hello d later, hello.ty = .hello ∧
        dispatchConnection serde.json accepts registry fresh outTx answers =
          .ok (.control hello d later) ∧
        framing.frames (received answers) = hello :: framing.frames (d.unread ++ received later)) ∨
      ((∀ hello d later, dispatchConnection serde.json accepts registry fresh outTx answers ≠
          .ok (.control hello d later)) ∧
        repliesTo serde env (framing.frames (received answers)) = []) := by
  have hframes : (∀ f, (readOneFrame FrameDecoder.new answers).1 ≠ .ok (some f)) →
      framing.frames (received answers) = [] := by
    intro hnothing
    have hnone := frames_of_readOneFrame hnothing
    rwa [FrameDecoder.unread_new, List.nil_append] at hnone
  rw [dispatchConnection]
  rcases hread : readOneFrame FrameDecoder.new answers with ⟨e | _ | first, d, later⟩
  · have hnone := hframes fun f hf => by simp [hread] at hf
    rw [hnone]
    exact Or.inr ⟨by simp, rfl⟩
  · have hnone := hframes fun f hf => by simp [hread] at hf
    rw [hnone]
    exact Or.inr ⟨by simp, rfl⟩
  · have hfirst := framing.frames_of_frame encode_ne_nil (readOneFrame_some hread)
    rw [FrameDecoder.unread_new, List.nil_append] at hfirst
    rw [hfirst]
    by_cases hhello : first.ty = .hello
    · exact Or.inl ⟨first, d, later, hhello, by simp [hhello], rfl⟩
    · refine Or.inr ⟨?_, if_neg fun h => hhello h.1⟩
      intro hello d' later'
      cases hty : first.ty with
      | hello => exact absurd hty hhello
      | attachOrOpen =>
          simp only [hty]
          cases handleSession serde.json accepts registry fresh outTx first d later with
          | error e => simp [Except.map]
          | ok bound => simp [Except.map]
      | helloOk | list | sessions | input | resize | data | status | exit | close => simp [hty]

/-- Only this user's peers are let in. -/
theorem checkPeerUid_eq_ok_iff (peer : Except Errno Nat) (me : Nat) :
    checkPeerUid peer me = .ok () ↔ peer = .ok me := by
  cases peer with
  | error e => simp [checkPeerUid]
  | ok uid =>
      by_cases h : uid = me
      · simp [checkPeerUid, h]
      · simp [checkPeerUid, h]

/-- What the daemon writes on a control connection is a function of who the peer is, of
the frames sent and of what was collected, whatever the reads: a foreign user gets
nothing, and is bound to no session. -/
theorem serve_bytes (accepts : Accepts) (registry : Registry) (fresh : ChannelId)
    (outTx : ClientId) (peer : Except Errno Nat) (me : Nat) (answers : List ReadAnswer) :
    (serve serde env accepts registry fresh outTx peer me answers).bytes =
        (if peer = .ok me then
          sent env 0 (repliesTo serde env (framing.frames (received answers)))
        else []) ∧
      (peer ≠ .ok me →
        (serve serde env accepts registry fresh outTx peer me answers).bound = none) := by
  rw [serve]
  by_cases hpeer : peer = .ok me
  · rw [(checkPeerUid_eq_ok_iff peer me).mpr hpeer, if_pos hpeer]
    refine ⟨?_, fun hforeign => absurd hpeer hforeign⟩
    rcases dispatch_control serde env accepts registry fresh outTx answers with
      ⟨hello, d, later, hty, hdispatch, hframes⟩ | ⟨hother, hno⟩
    · rw [hdispatch, hframes]
      exact handleControl_eq serde env hello hty d later
    · rw [hno]
      cases hdispatch : dispatchConnection serde.json accepts registry fresh outTx answers with
      | error e => rfl
      | ok kind =>
          cases kind with
          | control hello d later => exact absurd hdispatch (hother hello d later)
          | closed | session bound | unexpected ty => rfl
  · cases hcheck : checkPeerUid peer me with
    | error e => exact ⟨(if_neg hpeer).symm, fun _ => rfl⟩
    | ok passed => exact absurd ((checkPeerUid_eq_ok_iff peer me).mp hcheck) hpeer

/-! ## What the peer decodes -/

/-- What is written begins the encoding of the replies, and is all of it when no write
fails. -/
theorem sent_prefix (n : Nat) (fs : List Frame) :
    sent env n fs <+: framing.wire fs ∧
      ((∀ k, n ≤ k → env.writes k = .ok ()) → sent env n fs = framing.wire fs) := by
  induction fs generalizing n with
  | nil => exact ⟨List.prefix_refl _, fun _ => rfl⟩
  | cons f fs ih =>
      rw [sent, Framing.wire_cons]
      rcases hwrite : env.writes n with ⟨k, e⟩ | ⟨⟩
      · refine ⟨(List.take_prefix k _).trans (List.prefix_append _ _), fun h => ?_⟩
        rw [h n (Nat.le_refl n)] at hwrite
        cases hwrite
      · obtain ⟨hbegin, hall⟩ := ih (n + 1)
        refine ⟨(List.prefix_append_right_inj _).mpr hbegin, fun h => ?_⟩
        exact congrArg (f.encode ++ ·) (hall fun k hk => h k (by omega))

/-- In every control connection of the daemon's own user, whatever the user sends and in
whatever pieces: from whatever has arrived of the bytes written, in whatever segments, the
user decodes without error a beginning of the replies, as long as they fit into frames;
and all of them when no write has failed and all has arrived. -/
theorem control_conversation (accepts : Accepts) (registry : Registry) (fresh : ChannelId)
    (outTx : ClientId) (me : Nat) (answers : List ReadAnswer)
    (hfits : ∀ f ∈ repliesTo serde env (framing.frames (received answers)),
      f.payload.length ≤ maxFrameLen)
    (segments : List (List UInt8))
    (harrived : segments.flatten <+:
      (serve serde env accepts registry fresh outTx (.ok me) me answers).bytes) :
    (feedSegments segments).error = none ∧
      (feedSegments segments).frames <+:
        repliesTo serde env (framing.frames (received answers)) ∧
      ((∀ k, env.writes k = .ok ()) →
        segments.flatten =
          (serve serde env accepts registry fresh outTx (.ok me) me answers).bytes →
        (feedSegments segments).frames =
          repliesTo serde env (framing.frames (received answers))) := by
  have hbytes := (serve_bytes serde env accepts registry fresh outTx (.ok me) me answers).1
  rw [if_pos rfl] at hbytes
  rw [hbytes] at harrived ⊢
  obtain ⟨hbegin, hall⟩ := sent_prefix env 0 (repliesTo serde env (framing.frames (received answers)))
  obtain ⟨herror, hframes, hwhole⟩ := parse_of_beginning hfits (harrived.trans hbegin)
  have hagrees := agrees_feedSegments segments
  rw [hagrees.error, hagrees.frames]
  refine ⟨herror, hframes, fun hwrites hflat => hwhole ?_⟩
  rw [hflat, hall fun k _ => hwrites k]

end Control

/-- A decoder that takes any HELLO for one of this version. -/
def anyHello : Serde where
  json := ⟨fun _ => none, fun _ => none, fun _ => none⟩
  hello := fun _ => some ownHello
  text := fun _ => [0x22, 0x22]

/-- A session has come by the second LIST. -/
def oneSession : Surroundings where
  lists := fun n => if n = 1 then [] else [⟨"a", ["sh"], "/", false, true, 1700000000⟩]
  writes := fun _ => .ok ()

/-- Two LISTs with a frame between them that is none of a control connection's; the
first read ends inside a header. -/
def askTwice : List ReadAnswer :=
  let bytes := framing.wire [⟨.hello, []⟩, ⟨.list, []⟩, ⟨.resize, [0x31]⟩, ⟨.list, []⟩]
  [.ok (bytes.take 7), .ok (bytes.drop 7), .ok []]

/-- Both requests are answered in order. -/
theorem control_conversation_askTwice :
    ∃ bytes, bytes = (serve anyHello oneSession (fun _ => true) (.withMaxSessions 4) 0 0
        (.ok 1000) 1000 askTwice).bytes ∧
      (feedSegments [bytes.take 9, bytes.drop 9]).frames =
        [helloOkFrame anyHello ownHello, sessionsFrame anyHello [],
          sessionsFrame anyHello (oneSession.lists 2)] := by
  have hfits : ∀ f ∈ repliesTo anyHello oneSession (framing.frames (received askTwice)),
      f.payload.length ≤ maxFrameLen := by
    decide +kernel
  have hreplies : repliesTo anyHello oneSession (framing.frames (received askTwice)) =
      [helloOkFrame anyHello ownHello, sessionsFrame anyHello [],
        sessionsFrame anyHello (oneSession.lists 2)] := by
    decide +kernel
  refine ⟨_, rfl, ?_⟩
  have hflat : ∀ bytes : List UInt8, [bytes.take 9, bytes.drop 9].flatten = bytes := by
    intro bytes
    simp
  obtain ⟨-, -, hall⟩ := control_conversation anyHello oneSession (fun _ => true)
    (.withMaxSessions 4) 0 0 1000 askTwice hfits _ ⟨[], by rw [List.append_nil, hflat]⟩
  rw [hall (fun _ => rfl) (hflat _), hreplies]

end JftermMuxer.Daemon
