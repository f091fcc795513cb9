import Jobyard.Program.Basic

/-!
Wake-up signals and cancellation tokens. A signal counts its notifications, modulo the width of
the counter; a waiter that names the count it saw does not miss one that came in between.
-/

namespace Jobyard

namespace Signal

def notify (signal : SignalRef) : Program Unit := Program.ask (.notify signal)

def generation (signal : SignalRef) : Program UInt64 := Program.ask (.generation signal)

def wait (signal : SignalRef) (seen : UInt64) (timeout : Duration) : Program UInt64 :=
  Program.ask (.wait signal seen timeout)

end Signal

namespace Token

def isCancelled (token : TokenRef) : Program Bool := Program.ask (.isCancelled token)

/-- Has the signal notified on cancellation, also on one that has already happened. -/
def register (token : TokenRef) (signal : SignalRef) : Program Unit := do
  Program.ask (.watch token signal)
  if ← isCancelled token then Signal.notify signal

def notifyAll : List SignalRef → Program Unit
  | [] => pure ()
  | signal :: rest => do
    Signal.notify signal
    notifyAll rest

/-- Cancels, and wakes all that wait on a watched signal. -/
def cancel (token : TokenRef) : Program Unit := do
  Program.ask (.raise token)
  notifyAll (← Program.ask (.takeWatched token))

end Token

end Jobyard
