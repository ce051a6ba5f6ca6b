import FaninMcp.ConfigValidation
import FaninMcp.Foundation.EventRuns
import FaninMcp.StderrLines

/-!
# From the log calls to the log files

Lines for an upstream's log come from the task that reads its stderr and from the
handlers of its notifications. A line is redacted and sent into a bounded channel,
one for each log file and server, and a task behind the channel appends it to the
file. The table of channels lives as long as the process; a writer that cannot
open its file is gone, and its place in the table is not given to another.
-/

set_option autoImplicit false

namespace FaninMcp.LogPipeline
open Foundation.RustText Foundation.LossyUtf8 Foundation.EventRuns FaninMcp.StderrCapture

def logChannelCapacity : ℕ := 256

/-- `LogKey`: the log file and the server. -/
abbrev LogKey := Text × Text

def label (server : Text) : Text := "[".toList ++ server ++ "] ".toList

/-- `format!("[{server_name}] {line}\n")`. -/
def logFrame (server line : Text) : Text := label server ++ line ++ "\n".toList

/-- What the task of `spawn_log_writer` is doing. -/
inductive Writer where
  | opening
  | waiting
  | writing (rest : Bytes)
  | gone
  deriving DecidableEq

/-- The bytes of the current line that are not in the file yet. -/
def Writer.unwritten : Writer → Bytes
  | .writing rest => rest
  | _ => []

@[simp] theorem unwritten_opening : Writer.opening.unwritten = [] := rfl

@[simp] theorem unwritten_waiting : Writer.waiting.unwritten = [] := rfl

@[simp] theorem unwritten_writing (rest : Bytes) : (Writer.writing rest).unwritten = rest := rfl

@[simp] theorem unwritten_gone : Writer.gone.unwritten = [] := rfl

structure Channel where
  key : LogKey
  queue : List Text
  writer : Writer

def Channel.new (key : LogKey) : Channel := ⟨key, [], .opening⟩

/-- `writers` is the table `LOG_WRITERS`; `sending` is the line a task is waiting to
send, and where to; a file that is not there is empty. -/
structure Pipeline where
  writers : LogKey → Option ℕ
  channels : List Channel
  sending : ℕ → Option (ℕ × Text)
  files : Text → Bytes

def Pipeline.start (files : Text → Bytes) : Pipeline := ⟨fun _ => none, [], fun _ => none, files⟩

def Pipeline.update (σ : Pipeline) (c : ℕ) (channel : Channel) : Pipeline :=
  { σ with channels := σ.channels.set c channel }

def Pipeline.sent (σ : Pipeline) (i : ℕ) (pending : Option (ℕ × Text)) : Pipeline :=
  { σ with sending := Function.update σ.sending i pending }

/-- `log_sender`: the channel of the table, or a new one with a writer of its own. -/
def Pipeline.logSender (σ : Pipeline) (key : LogKey) : ℕ × Pipeline :=
  match σ.writers key with
  | some c => (c, σ)
  | none => (σ.channels.length, { σ with
      writers := Function.update σ.writers key (some σ.channels.length)
      channels := σ.channels ++ [Channel.new key] })

/-- `append` is a call of `append_log_line` up to where it waits for its channel,
with the registered secrets as they are iterated. A write may take less than the
whole line. -/
inductive LogEvent where
  | append (i : ℕ) (key : LogKey) (line : Text) (order : List Text)
  | send (i c : ℕ) (line : Text)
  | refuse (i : ℕ)
  | cancel (i : ℕ)
  | opened (c : ℕ) (ok : Bool)
  | receive (c : ℕ) (line : Text)
  | write (c : ℕ) (chunk : Bytes)
  | fail (c : ℕ)
  deriving DecidableEq

/-- A send succeeds when there is room, and fails when the receiver is gone. -/
def Channel.send (channel : Channel) (line : Text) : Option Channel :=
  if channel.writer ≠ .gone ∧ channel.queue.length < logChannelCapacity then
    some { channel with queue := channel.queue ++ [line] }
  else none

/-- The receiver is dropped with what is queued when the file cannot be opened. -/
def Channel.opened (channel : Channel) (ok : Bool) : Option Channel :=
  if channel.writer = .opening then
    some (if ok then { channel with writer := .waiting }
      else { channel with queue := [], writer := .gone })
  else none

def Channel.receive (channel : Channel) (line : Text) : Option Channel :=
  match channel.writer, channel.queue with
  | .waiting, next::queue =>
    if next = line then
      some { channel with queue, writer := .writing (utf8 (logFrame channel.key.2 line)) }
    else none
  | _, _ => none

def Channel.write (channel : Channel) (chunk : Bytes) : Option Channel :=
  match channel.writer with
  | .writing rest =>
    if chunk ≠ [] ∧ chunk <+: rest then
      some { channel with
        writer := if rest.length = chunk.length then .waiting
          else .writing (rest.drop chunk.length) }
    else none
  | _ => none

/-- A failed write gives up the line and goes on with the next. -/
def Channel.fail (channel : Channel) : Option Channel :=
  match channel.writer with
  | .writing _ => some { channel with writer := .waiting }
  | _ => none

def Pipeline.at (σ : Pipeline) (c : ℕ) (f : Channel → Option Channel) : Option Pipeline :=
  match σ.channels[c]? with
  | some channel => (f channel).map (σ.update c)
  | none => none

def Pipeline.step (σ : Pipeline) : LogEvent → Option Pipeline
  | .append i key line order =>
    match σ.sending i with
    | some _ => none
    | none =>
      let sender := σ.logSender key
      some (sender.2.sent i (some (sender.1, appendLogLine order line)))
  | .send i c line =>
    if σ.sending i = some (c, line) then (σ.at c (·.send line)).map (·.sent i none) else none
  | .refuse i =>
    match σ.sending i with
    | some (c, _) =>
      if σ.channels[c]?.map Channel.writer = some .gone then some (σ.sent i none) else none
    | none => none
  | .cancel i => if (σ.sending i).isSome then some (σ.sent i none) else none
  | .opened c ok => σ.at c (·.opened ok)
  | .receive c line => σ.at c (·.receive line)
  | .write c chunk =>
    match σ.channels[c]? with
    | some channel => (σ.at c (·.write chunk)).map fun σ' => { σ' with
        files := Function.update σ.files channel.key.1 (σ.files channel.key.1 ++ chunk) }
    | none => none
  | .fail c => σ.at c Channel.fail

end FaninMcp.LogPipeline
