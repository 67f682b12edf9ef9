import Lox.Diagnostic
import Lox.Value

/-!
# The host

What a program can reach outside of itself: the output that it prints to, the input that it reads
lines from, and a clock. A host can refuse output, and it can offer functions of its own.
-/

namespace Lox

/-! ### Output -/

/-- Where printed text goes. A sink with a limit is full once it holds that many ends of lines. -/
structure Sink where
  limit : Option Nat
  text : String

namespace Sink

/-- An empty sink. -/
def start (limit : Option Nat) : Sink := ⟨limit, ""⟩

/-- Holds if nothing more can be written. -/
def isFull (sink : Sink) : Bool :=
  match sink.limit with
  | none => false
  | some limit => limit ≤ sink.text.toList.count '\n'

/-- What a full sink says. -/
def refusal : Diagnostic := .output "sink full"

/-- The sink with a text added to what it holds. -/
def append (sink : Sink) (text : String) : Sink := { sink with text := sink.text ++ text }

end Sink

/-! ### Input and clock -/

/-- The first line of an input with its end, if there is any input left, and the rest. -/
def takeLine (input : List UInt8) : Option (List UInt8 × List UInt8) :=
  match input with
  | [] => none
  | _ => match input.span (· != 10) with
    | (line, []) => some (line, [])
    | (line, newline :: rest) => some (line ++ [newline], rest)

/-- A text without the ends of lines that it ends in. -/
def withoutLineEnds (text : String) : String :=
  String.ofList (text.toList.reverse.dropWhile fun c => c == '\n' || c == '\r').reverse

/-- What a program finds outside: the input not yet read, and the milliseconds on the clock. -/
structure World where
  input : List UInt8
  clock : Nat

/-- The milliseconds on the clock of a new world. -/
def World.firstReading : Nat := 1800000000000

/-- A world with this input. -/
def World.start (input : List UInt8) : World := ⟨input, firstReading⟩

/-! ### Functions of the host -/

/-- What a function of the host does with its arguments. It sees the objects, may change the world,
and fails in its own words. -/
abbrev HostAction := Heap → World → List Value → Except String Value × World

/-- A function that the host offers. -/
structure HostOffer where
  name : String
  arity : Nat
  action : HostAction

namespace HostOffer

/-- The time in seconds. The clock goes on by a millisecond with each reading. -/
def clock : HostOffer where
  name := "clock"
  arity := 0
  action := fun _ world _ =>
    (.ok (.number (Float.ofNat world.clock / 1000)), { world with clock := world.clock + 1 })

/-- The next line of the input without its end, or `nil` at the end of the input. A line that is no
text is used up and fails. -/
def readLine : HostOffer where
  name := "readLine"
  arity := 0
  action := fun _ world _ =>
    match takeLine world.input with
    | none => (.ok .nil, world)
    | some (line, rest) =>
      let answer := match Utf8.decode line with
        | .ok text => .ok (.string (withoutLineEnds text))
        | .error _ => .error "readLine failed: stream did not contain valid UTF-8"
      (answer, { world with input := rest })

/-- The functions that are always there. -/
def standard : List HostOffer := [clock, readLine]

end HostOffer

end Lox
