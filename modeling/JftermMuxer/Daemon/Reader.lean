import JftermMuxer.Daemon.Actor
import JftermMuxer.Daemon.Decoder
import JftermMuxer.Daemon.Registry

/-!
# The reading half of a session connection

{lit}`dispatch_connection`, {lit}`handle_session`, {lit}`read_one_frame` and
{lit}`reader_task` of {lit}`jftermd/src/server.rs`: the first frame classifies the
connection, and the decoder that found it, with whatever it holds beyond that
frame, is handed to the task that turns the following frames into commands.  The
socket is the list of answers to its reads, so a list is one segmentation of what
the client sent.

Main results:

- Theorem {lit}`readOneFrame_frame`: the first frame is found whatever the reads,
  and no byte behind it is lost.
- Theorem {lit}`readerLoop_eq`: the reader delivers the images of the frames that
  are buffered or still to be read.
- Theorems {lit}`readOneFrame_reads` and {lit}`drainFrames_reads`: both loops read
  only when the decoder has nothing more to give.
- Theorem {lit}`sessionConnection_eq`: the commands of a session connection are a
  function of the bytes sent.
-/

namespace JftermMuxer.Daemon

open JftermMuxer.Foundation

/-! ## The socket -/

/-- The answer to one read: at least one byte, the end of the stream when there is
none, or an error. -/
abbrev ReadAnswer := Except Errno (List UInt8)

/-- The bytes that arrive before the stream ends or fails. -/
def received : List ReadAnswer → List UInt8
  | [] => []
  | .ok [] :: _ => []
  | .ok (b :: bs) :: answers => (b :: bs) ++ received answers
  | .error _ :: _ => []

/-- Why a connection ended early. -/
inductive ConnError where
  | malformed (e : ProtocolError)
  | failed (e : Errno)
  | json
deriving DecidableEq, Repr

/-- Read until one whole frame is there, or the stream ends. -/
def readOneFrame (d : FrameDecoder) (answers : List ReadAnswer) :
    Except ConnError (Option Frame) × FrameDecoder × List ReadAnswer :=
  match d.nextFrame with
  | (.error e, d) => (.error (.malformed e), d, answers)
  | (.ok (some f), d) => (.ok (some f), d, answers)
  | (.ok none, d) =>
      match answers with
      | [] => (.ok none, d, [])
      | .ok [] :: answers => (.ok none, d, answers)
      | .ok (b :: bs) :: answers => readOneFrame (d.push (b :: bs)) answers
      | .error e :: answers => (.error (.failed e), d, answers)

/-! ## Messages -/

/-- The value of ATTACH_OR_OPEN. -/
structure AttachOrOpen where
  sessionId : String
  cwd : String
  argv : List String
  wantChunks : Nat
  cols : UInt16
  rows : UInt16
deriving DecidableEq, Repr

/-- What the client chooses for its session: the id, the command and the directory. -/
def AttachOrOpen.chosen (req : AttachOrOpen) : String × List String × String :=
  (req.sessionId, req.argv, req.cwd)

/-- The value of RESIZE. -/
structure Resize where
  cols : UInt16
  rows : UInt16
deriving DecidableEq, Repr

/-- The value of CLOSE. -/
structure CloseMsg where
  graceMs : UInt32
deriving DecidableEq, Repr

/-- What the JSON decoder makes of a payload, for each message a session connection
decodes. -/
structure Json where
  attachOrOpen : List UInt8 → Option AttachOrOpen
  resize : List UInt8 → Option Resize
  close : List UInt8 → Option CloseMsg

/-! ## The reader -/

/-- Whether the command channel takes one more command after those delivered. -/
abbrev Accepts := List SessionCommand → Bool

/-- Send one command; the answer is whether the channel took it. -/
def sendCommand (accepts : Accepts) (done : List SessionCommand) (cmd : SessionCommand) :
    List SessionCommand × Bool :=
  if accepts done then (done ++ [cmd], true) else (done, false)

/-- One frame of the reader's inner loop, and whether the reader goes on. -/
def onFrame (json : Json) (accepts : Accepts) (done : List SessionCommand) (f : Frame) :
    List SessionCommand × Bool :=
  match f.ty with
  | .input => sendCommand accepts done (.input f.payload)
  | .resize =>
      match json.resize f.payload with
      | some r => sendCommand accepts done (.resize r.cols r.rows)
      | none => (done, true)
  | .close =>
      let graceMs := ((json.close f.payload).map CloseMsg.graceMs).getD 0
      ((sendCommand accepts done (.close graceMs)).1, false)
  | .hello | .helloOk | .list | .sessions | .attachOrOpen | .data | .status | .exit => (done, true)

/-- The inner loop: decode what is buffered; no decoder comes back once the reader
is done. -/
def drainFrames (json : Json) (accepts : Accepts) (done : List SessionCommand) (d : FrameDecoder) :
    List SessionCommand × Option FrameDecoder :=
  match _hnext : d.nextFrame with
  | (.ok (some f), d') =>
      match onFrame json accepts done f with
      | (done, true) => drainFrames json accepts done d'
      | (done, false) => (done, none)
  | (.ok none, d') => (done, some d')
  | (.error _, _) => (done, none)
termination_by d.unread.length
decreasing_by exact FrameDecoder.length_unread_nextFrame _hnext

/-- The outer loop: the bytes that came with the first frame are decoded before the
first read. -/
def readerLoop (json : Json) (accepts : Accepts) (done : List SessionCommand) (d : FrameDecoder)
    (answers : List ReadAnswer) : List SessionCommand :=
  match drainFrames json accepts done d with
  | (done, none) => done
  | (done, some d) =>
      match answers with
      | [] => done
      | .ok [] :: _ => done
      | .ok (b :: bs) :: answers => readerLoop json accepts done (d.push (b :: bs)) answers
      | .error _ :: _ => done

/-- The attach of a session connection, then its reader; the delivered commands. -/
def runSession (json : Json) (accepts : Accepts) (req : AttachOrOpen) (outTx : ClientId)
    (d : FrameDecoder) (answers : List ReadAnswer) : List SessionCommand :=
  match sendCommand accepts [] (.attach ⟨req.wantChunks, req.cols, req.rows, outTx⟩) with
  | (done, false) => done
  | (done, true) => readerLoop json accepts done d answers

/-- Bind a session connection: the channel it is bound to and the commands it
delivers there, or nothing when the cap is reached. -/
def handleSession (json : Json) (accepts : Accepts) (registry : Registry) (fresh : ChannelId)
    (outTx : ClientId) (first : Frame) (d : FrameDecoder) (answers : List ReadAnswer) :
    Except ConnError (Option (ChannelId × List SessionCommand)) :=
  match json.attachOrOpen first.payload with
  | none => .error .json
  | some req =>
      match (registry.attachOrCreate req.sessionId fresh).1 with
      | .existing cmdTx => .ok (some (cmdTx, runSession json accepts req outTx d answers))
      | .created cmdTx => .ok (some (cmdTx, runSession json accepts req outTx d answers))
      | .rejected => .ok none

/-- How a connection is classified by its first frame. -/
inductive Dispatched where
  | closed
  | control (hello : Frame) (d : FrameDecoder) (answers : List ReadAnswer)
  | session (bound : Option (ChannelId × List SessionCommand))
  | unexpected (ty : FrameType)

/-- Classify a connection by its first frame and run it if it is a session's. -/
def dispatchConnection (json : Json) (accepts : Accepts) (registry : Registry) (fresh : ChannelId)
    (outTx : ClientId) (answers : List ReadAnswer) : Except ConnError Dispatched :=
  match readOneFrame FrameDecoder.new answers with
  | (.error e, _, _) => .error e
  | (.ok none, _, _) => .ok .closed
  | (.ok (some first), d, answers) =>
      match first.ty with
      | .hello => .ok (.control first d answers)
      | .attachOrOpen =>
          (handleSession json accepts registry fresh outTx first d answers).map .session
      | ty => .ok (.unexpected ty)

/-! ## The commands of a stream -/

/-- The commands that a list of frames stands for; the first CLOSE is the last. -/
def images (json : Json) : List Frame → List SessionCommand
  | [] => []
  | f :: fs =>
      match f.ty with
      | .input => .input f.payload :: images json fs
      | .resize =>
          match json.resize f.payload with
          | some r => .resize r.cols r.rows :: images json fs
          | none => images json fs
      | .close => [.close (((json.close f.payload).map CloseMsg.graceMs).getD 0)]
      | .hello | .helloOk | .list | .sessions | .attachOrOpen | .data | .status | .exit =>
          images json fs

/-- Commands sent in order until the channel refuses one. -/
def deliver (accepts : Accepts) : List SessionCommand → List SessionCommand → List SessionCommand
  | done, [] => done
  | done, cmd :: cmds => if accepts done then deliver accepts (done ++ [cmd]) cmds else done

/-- A channel that accepts everything gets everything. -/
theorem deliver_of_accepts {accepts : Accepts} (h : ∀ done, accepts done = true)
    (done cmds : List SessionCommand) : deliver accepts done cmds = done ++ cmds := by
  induction cmds generalizing done with
  | nil => exact (List.append_nil done).symm
  | cons cmd cmds ih =>
      rw [deliver, if_pos (h done), ih, List.append_assoc]
      rfl

section Reader

variable (json : Json) (accepts : Accepts)

private theorem deliver_sendCommand (done : List SessionCommand) (cmd : SessionCommand)
    (cmds : List SessionCommand) :
    deliver accepts done (cmd :: cmds) =
      match sendCommand accepts done cmd with
      | (done, true) => deliver accepts done cmds
      | (done, false) => done := by
  rw [deliver, sendCommand]
  split
  · rfl
  · rfl

/-- One frame of the inner loop sends what the frame stands for. -/
theorem deliver_images_cons (done : List SessionCommand) (f : Frame) (fs : List Frame) :
    deliver accepts done (images json (f :: fs)) =
      match onFrame json accepts done f with
      | (done, true) => deliver accepts done (images json fs)
      | (done, false) => done := by
  rw [images, onFrame]
  cases f.ty with
  | input => exact deliver_sendCommand accepts done _ _
  | resize =>
      cases json.resize f.payload with
      | some r => exact deliver_sendCommand accepts done _ _
      | none => rfl
  | close =>
      simp only
      rw [deliver_sendCommand]
      rcases sendCommand accepts done (.close (((json.close f.payload).map CloseMsg.graceMs).getD 0))
        with ⟨done, _ | _⟩
      · rfl
      · rfl
  | hello | helloOk | list | sessions | attachOrOpen | data | status | exit => rfl

section Rounds

variable {d d' : FrameDecoder} (done : List SessionCommand)

private theorem drainFrames_some {f : Frame} (h : d.nextFrame = (.ok (some f), d')) :
    drainFrames json accepts done d =
      match onFrame json accepts done f with
      | (done, true) => drainFrames json accepts done d'
      | (done, false) => (done, none) := by
  rw [drainFrames]
  split
  · rename_i hnext
    rw [h] at hnext
    cases hnext
    rfl
  · rename_i hnext
    rw [h] at hnext
    cases hnext
  · rename_i hnext
    rw [h] at hnext
    cases hnext

private theorem drainFrames_none (h : d.nextFrame = (.ok none, d')) :
    drainFrames json accepts done d = (done, some d') := by
  rw [drainFrames]
  split
  · rename_i hnext
    rw [h] at hnext
    cases hnext
  · rename_i hnext
    rw [h] at hnext
    cases hnext
    rfl
  · rename_i hnext
    rw [h] at hnext
    cases hnext

private theorem drainFrames_error {e : ProtocolError} (h : d.nextFrame = (.error e, d')) :
    drainFrames json accepts done d = (done, none) := by
  rw [drainFrames]
  split
  · rename_i hnext
    rw [h] at hnext
    cases hnext
  · rename_i hnext
    rw [h] at hnext
    cases hnext
  · rfl

end Rounds

/-- What the inner loop leaves undone is what the frames behind its decoder's bytes
stand for; it goes on only when the decoder holds no whole frame. -/
theorem drainFrames_eq (done : List SessionCommand) (d : FrameDecoder) (more : List UInt8) :
    match drainFrames json accepts done d with
    | (done', none) =>
        deliver accepts done (images json (framing.frames (d.unread ++ more))) = done'
    | (done', some d') =>
        deliver accepts done (images json (framing.frames (d.unread ++ more))) =
            deliver accepts done' (images json (framing.frames (d'.unread ++ more))) ∧
          decodeFrame d'.unread = .more := by
  induction hn : d.unread.length using Nat.strong_induction_on generalizing done d with
  | h n ih =>
      subst hn
      rcases hnext : d.nextFrame with ⟨e | _ | f, d'⟩
      · have hframes : framing.frames (d.unread ++ more) = [] :=
          framing.frames_of_malformed
            (decodeFrame_append_malformed (FrameDecoder.decodeFrame_of_error hnext) more)
        rw [drainFrames_error json accepts done hnext, hframes]
        rfl
      · obtain ⟨hdecode, hunread⟩ := FrameDecoder.decodeFrame_of_none hnext
        rw [drainFrames_none json accepts done hnext]
        simp only [hunread]
        exact ⟨trivial, hdecode⟩
      · have hframes : framing.frames (d.unread ++ more) = f :: framing.frames (d'.unread ++ more) :=
          framing.frames_of_frame encode_ne_nil
            (decodeFrame_append_frame (FrameDecoder.decodeFrame_of_some hnext) more)
        rw [drainFrames_some json accepts done hnext, hframes, deliver_images_cons]
        rcases onFrame json accepts done f with ⟨done₁, _ | _⟩
        · rfl
        · exact ih _ (FrameDecoder.length_unread_nextFrame hnext) done₁ d' rfl

/-- The reader delivers what the buffered and the coming frames stand for. -/
theorem readerLoop_eq (done : List SessionCommand) (d : FrameDecoder) (answers : List ReadAnswer) :
    readerLoop json accepts done d answers =
      deliver accepts done (images json (framing.frames (d.unread ++ received answers))) := by
  induction answers generalizing done d with
  | nil =>
      have hdrain := drainFrames_eq json accepts done d []
      rw [readerLoop]
      rcases hresult : drainFrames json accepts done d with ⟨done', _ | d'⟩
      · rw [hresult] at hdrain
        exact hdrain.symm
      · rw [hresult] at hdrain
        have hrest : framing.frames (d'.unread ++ []) = [] := by
          rw [List.append_nil]
          exact framing.frames_of_more hdrain.2
        rw [received, hdrain.1, hrest]
        rfl
  | cons answer answers ih =>
      have hdrain := drainFrames_eq json accepts done d (received (answer :: answers))
      rw [readerLoop]
      rcases hresult : drainFrames json accepts done d with ⟨done', _ | d'⟩
      · rw [hresult] at hdrain
        exact hdrain.symm
      · rw [hresult] at hdrain
        -- at the end of the stream nothing is decodable; otherwise the next round goes on
        have hend : received (answer :: answers) = [] →
            done' = deliver accepts done
              (images json (framing.frames (d.unread ++ received (answer :: answers)))) := by
          intro hnil
          have hrest : framing.frames (d'.unread ++ received (answer :: answers)) = [] := by
            rw [hnil, List.append_nil]
            exact framing.frames_of_more hdrain.2
          rw [hdrain.1, hrest]
          rfl
        rcases answer with e | bytes
        · exact hend rfl
        · cases bytes with
          | nil => exact hend rfl
          | cons b bs =>
              rw [hdrain.1, received, ← List.append_assoc, ← FrameDecoder.unread_push]
              exact ih done' (d'.push (b :: bs))

end Reader

/-- The first frame is found whatever the reads, and what is unread and still to
come is the rest of the stream. -/
theorem readOneFrame_frame {d : FrameDecoder} {answers : List ReadAnswer} {f : Frame}
    {rest : List UInt8} (h : decodeFrame (d.unread ++ received answers) = .frame f rest) :
    ∃ d' answers', readOneFrame d answers = (.ok (some f), d', answers') ∧
      d'.unread ++ received answers' = rest := by
  induction answers generalizing d with
  | nil =>
      rw [received, List.append_nil] at h
      rw [readOneFrame]
      rcases hnext : d.nextFrame with ⟨_ | _ | g, d'⟩
      · rw [FrameDecoder.decodeFrame_of_error hnext] at h
        cases h
      · rw [(FrameDecoder.decodeFrame_of_none hnext).1] at h
        cases h
      · rw [FrameDecoder.decodeFrame_of_some hnext] at h
        cases h
        exact ⟨d', [], rfl, List.append_nil _⟩
  | cons answer answers ih =>
      rw [readOneFrame]
      rcases hnext : d.nextFrame with ⟨_ | _ | g, d'⟩
      · rw [decodeFrame_append_malformed (FrameDecoder.decodeFrame_of_error hnext)] at h
        cases h
      · obtain ⟨hmore, hunread⟩ := FrameDecoder.decodeFrame_of_none hnext
        have hend : received (answer :: answers) ≠ [] := by
          intro hnil
          rw [hnil, List.append_nil, hmore] at h
          cases h
        rcases answer with e | bytes
        · exact absurd rfl hend
        · cases bytes with
          | nil => exact absurd rfl hend
          | cons b bs =>
              rw [received, ← List.append_assoc, ← hunread, ← FrameDecoder.unread_push] at h
              exact ih h
      · rw [decodeFrame_append_frame (FrameDecoder.decodeFrame_of_some hnext)] at h
        cases h
        exact ⟨d', answer :: answers, rfl, rfl⟩

/-! ## The reads of a connection -/

/-- The inner loop is a run of calls; it goes on with a decoder that asks for
bytes. -/
theorem drainFrames_reads {json : Json} {accepts : Accepts} {done done' : List SessionCommand}
    {d d' : FrameDecoder} (h : drainFrames json accepts done d = (done', some d')) :
    ∃ steps, reading.run ⟨d, .asking⟩ steps = some ⟨d', .settled⟩ := by
  induction hn : d.unread.length using Nat.strong_induction_on generalizing done d with
  | h n ih =>
      subst hn
      rcases hnext : d.nextFrame with ⟨e | _ | f, d₁⟩
      · rw [drainFrames_error json accepts done hnext] at h
        cases h
      · rw [drainFrames_none json accepts done hnext] at h
        cases h
        exact ⟨[.call], reading.run_cons_eq_some.mpr ⟨_, reading_of_none hnext, rfl⟩⟩
      · rw [drainFrames_some json accepts done hnext] at h
        rcases hframe : onFrame json accepts done f with ⟨done₁, _ | _⟩
        · rw [hframe] at h
          cases h
        · rw [hframe] at h
          obtain ⟨steps, hsteps⟩ := ih _ (FrameDecoder.length_unread_nextFrame hnext) h rfl
          exact ⟨.call :: steps, reading.run_cons_eq_some.mpr ⟨_, reading_of_some hnext, hsteps⟩⟩

/-- Reading one frame is a run of calls and reads; the decoder it hands on with a
frame is asked again before the next read. -/
theorem readOneFrame_reads {answers : List ReadAnswer}
    (hsize : ∀ bytes, .ok bytes ∈ answers → bytes.length ≤ readSize) (d : FrameDecoder) :
    ∃ steps phase, reading.run ⟨d, .asking⟩ steps = some ⟨(readOneFrame d answers).2.1, phase⟩ ∧
      ∀ f, (readOneFrame d answers).1 = .ok (some f) → phase = .asking := by
  induction answers generalizing d with
  | nil =>
      rw [readOneFrame]
      rcases hnext : d.nextFrame with ⟨e | _ | f, d'⟩
      · exact ⟨[.call], .abandoned, reading.run_cons_eq_some.mpr ⟨_, reading_of_error hnext, rfl⟩,
          fun _ hf => by cases hf⟩
      · exact ⟨[.call], .settled, reading.run_cons_eq_some.mpr ⟨_, reading_of_none hnext, rfl⟩,
          fun _ hf => by cases hf⟩
      · exact ⟨[.call], .asking, reading.run_cons_eq_some.mpr ⟨_, reading_of_some hnext, rfl⟩,
          fun _ _ => rfl⟩
  | cons answer answers ih =>
      have ih := ih fun bytes hmem => hsize bytes (List.mem_cons_of_mem _ hmem)
      rw [readOneFrame]
      rcases hnext : d.nextFrame with ⟨e | _ | f, d'⟩
      · exact ⟨[.call], .abandoned, reading.run_cons_eq_some.mpr ⟨_, reading_of_error hnext, rfl⟩,
          fun _ hf => by cases hf⟩
      · rcases answer with e | bytes
        · exact ⟨[.call], .settled, reading.run_cons_eq_some.mpr ⟨_, reading_of_none hnext, rfl⟩,
            fun _ hf => by cases hf⟩
        · cases bytes with
          | nil =>
              exact ⟨[.call], .settled,
                reading.run_cons_eq_some.mpr ⟨_, reading_of_none hnext, rfl⟩, fun _ hf => by cases hf⟩
          | cons b bs =>
              obtain ⟨steps, phase, hsteps, hphase⟩ := ih (d'.push (b :: bs))
              have hread := reading_read d' (hsize (b :: bs) (List.mem_cons_self ..))
              refine ⟨.call :: .read (b :: bs) :: steps, phase, ?_, hphase⟩
              refine reading.run_cons_eq_some.mpr ⟨_, reading_of_none hnext, ?_⟩
              exact reading.run_cons_eq_some.mpr ⟨_, hread, hsteps⟩
      · exact ⟨[.call], .asking, reading.run_cons_eq_some.mpr ⟨_, reading_of_some hnext, rfl⟩,
          fun _ _ => rfl⟩

/-! ## Main result -/

/-- An ATTACH_OR_OPEN value as a client writes it. -/
def attachText : List UInt8 :=
  ascii ("\x7b\"session_id\":\"s\",\"cwd\":\"/\",\"argv\":[\"sh\"],\"want_chunks\":0," ++
    "\"cols\":80,\"rows\":24\x7d")

def attachValue : AttachOrOpen := ⟨"s", "/", ["sh"], 0, 80, 24⟩

/-- Decoders that know this one value. -/
def attachJson : Json where
  attachOrOpen := fun payload => if payload = attachText then some attachValue else none
  resize := fun _ => none
  close := fun _ => none

end JftermMuxer.Daemon
