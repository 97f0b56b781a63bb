import AlphaMachine.Block.Compile

/-!
# The background compiler

A worker takes jobs from one queue and puts finished compilations into another, each in order.
The engine counts how many of its jobs have not come back.
-/

namespace AlphaMachine

/-- A block to be compiled. -/
structure CompileJob where
  /-- The block entry. -/
  start : UInt64
  /-- The instructions. -/
  words : List UInt32
  /-- The epoch in which the instructions were fetched. -/
  epoch : Nat

/-- A finished compilation. -/
structure Compiled where
  /-- The block entry. -/
  start : UInt64
  /-- The epoch in which the instructions were fetched. -/
  epoch : Nat
  /-- The block, or why there is none. -/
  result : Except CompileError Block

/-- Do a job. -/
def CompileJob.finish (job : CompileJob) : Compiled :=
  ⟨job.start, job.epoch, Block.compile job.start job.words⟩

/-- The worker and its two queues. -/
structure Worker where
  /-- Jobs that were not begun, the oldest first. -/
  jobs : List CompileJob := []
  /-- Finished compilations that were not received, the oldest first. -/
  finished : List Compiled := []
  /-- Jobs that were submitted and not received back. -/
  inFlight : Nat := 0

namespace Worker

/-- Hand a job to the worker. -/
def submit (w : Worker) (job : CompileJob) : Worker :=
  { w with jobs := w.jobs ++ [job], inFlight := w.inFlight + 1 }

/-- The worker does its oldest job. -/
def work (w : Worker) : Worker :=
  match w.jobs with
  | [] => w
  | job :: rest => { w with jobs := rest, finished := w.finished ++ [job.finish] }

/-- The worker does all its jobs. -/
def workAll (w : Worker) : Worker :=
  { w with jobs := [], finished := w.finished ++ w.jobs.map CompileJob.finish }

/-- Receive what is finished. -/
def receive (w : Worker) : List Compiled × Worker :=
  (w.finished, { w with finished := [], inFlight := w.inFlight - w.finished.length })

/-- Receive until every job has come back. -/
def receiveAll (w : Worker) : List Compiled × Worker :=
  let w := w.workAll
  let received := w.finished.take w.inFlight
  (received, { w with
    finished := w.finished.drop w.inFlight
    inFlight := w.inFlight - received.length })

end Worker

end AlphaMachine
