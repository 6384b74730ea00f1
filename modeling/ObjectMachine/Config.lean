import ObjectMachine.Text.Blank
import ObjectMachine.Decimal.Read

/-!
# ObjectMachine.Config

The settings of a process, shared by its tasks.

* `Channels` — which events are traced.
* `Config` — limits and collector parameters.
* `Config.ofEnvironment` — the defaults, overridden by environment variables.
-/

namespace ObjectMachine

/-- The trace channels that are on. -/
structure Channels where
  gc : Bool := false
  task : Bool := false
  vm : Bool := false
  module : Bool := false
deriving DecidableEq, Repr, Inhabited

namespace Channels

/-- Every channel. -/
def all : Channels := ⟨true, true, true, true⟩

/-- The parts of a text between commas. -/
def splitCommas (cs : List Char) : List (List Char) :=
  match cs with
  | [] => [[]]
  | c :: rest =>
    if c == ',' then [] :: splitCommas rest
    else
      match splitCommas rest with
      | [] => [[c]]
      | part :: parts => (c :: part) :: parts

/-- Turns on the channels named in a list; `all` turns on every one and ends the list. Other names
are ignored. -/
def turnOn (channels : Channels) : List String → Channels
  | [] => channels
  | word :: rest =>
    if word == "all" || word == "1" || word == "true" then all
    else if word == "gc" then turnOn { channels with gc := true } rest
    else if word == "task" then turnOn { channels with task := true } rest
    else if word == "vm" then turnOn { channels with vm := true } rest
    else if word == "module" then turnOn { channels with module := true } rest
    else turnOn channels rest

/-- Reads a comma-separated list of channels in any case, with blanks around the names. -/
def ofSpec (spec : String) : Channels :=
  turnOn {} ((splitCommas spec.toList).map fun part =>
    String.ofList ((Text.trim part).map Char.toLower))

end Channels

structure Config where
  /-- Allocations before the first collection is considered. -/
  gcThreshold : Nat := 10000
  /-- The least threshold that a collection sets. -/
  gcMinThreshold : Nat := 1024
  /-- The threshold after a collection, as a multiple of the live objects. -/
  gcGrowth : Float := 2.0
  /-- Instructions between two looks at the threshold. -/
  gcCheckInterval : Nat := 1024
  /-- The deepest frame stack; nested interpreter loops count too. -/
  maxFrames : Nat := 10000
  /-- The most nested interpreter loops. -/
  maxNativeDepth : Nat := 100
  /-- Bytes of stack for a spawned task. -/
  taskStackSize : Nat := 32 * 1024 * 1024
  trace : Channels := {}
deriving Inhabited

namespace Config

/-- The number an environment variable holds, blanks around it allowed. -/
def number? (lookup : String → Option String) (key : String) : Option Nat :=
  match lookup key with
  | some v => Decimal.size? (Text.trim v.toList)
  | none => none

/-- The number an environment variable holds, raised to `least`, or else `default`. -/
def setting (lookup : String → Option String) (key : String) (least default : Nat) : Nat :=
  match number? lookup key with
  | some n => max n least
  | none => default

/-- The defaults with the overrides of the environment. Every limit is at least one, and a task's
stack at least 64 KiB. -/
def ofEnvironment (lookup : String → Option String) : Config :=
  let base : Config := {}
  { base with
    gcThreshold := setting lookup "SABLE_GC_THRESHOLD" 1 base.gcThreshold
    gcCheckInterval := setting lookup "SABLE_GC_CHECK_INTERVAL" 1 base.gcCheckInterval
    maxFrames := setting lookup "SABLE_MAX_FRAMES" 1 base.maxFrames
    maxNativeDepth := setting lookup "SABLE_MAX_NATIVE_DEPTH" 1 base.maxNativeDepth
    taskStackSize := setting lookup "SABLE_TASK_STACK" (64 * 1024) base.taskStackSize
    trace :=
      match lookup "SABLE_TRACE" with
      | some spec => Channels.ofSpec spec
      | none => base.trace }

end Config
end ObjectMachine
