import Pseudocode.Text.Basic

/-!
# The kinds of faults

The faults of a run are of kinds, and a kind may be part of a wider one:
a division by zero is a fault of arithmetic. A script names kinds to say
which faults it deals with.
-/

namespace Pseudocode.Run

inductive Kind where
  | base
  | exception
  | arithmetic
  | zeroDivision
  | overflow
  | assertion
  | attribute
  | endOfFile
  | lookup
  | index
  | key
  | memory
  | name
  | unboundLocal
  | runtime
  | recursion
  | notImplemented
  | stopIteration
  | type
  | value
  | unicode
deriving DecidableEq, Repr

def Kind.all : List Kind :=
  [.base, .exception, .arithmetic, .zeroDivision, .overflow, .assertion, .attribute, .endOfFile,
    .lookup, .index, .key, .memory, .name, .unboundLocal, .runtime, .recursion, .notImplemented,
    .stopIteration, .type, .value, .unicode]

def Kind.text : Kind → Text
  | .base => "BaseException"
  | .exception => "Exception"
  | .arithmetic => "ArithmeticError"
  | .zeroDivision => "ZeroDivisionError"
  | .overflow => "OverflowError"
  | .assertion => "AssertionError"
  | .attribute => "AttributeError"
  | .endOfFile => "EOFError"
  | .lookup => "LookupError"
  | .index => "IndexError"
  | .key => "KeyError"
  | .memory => "MemoryError"
  | .name => "NameError"
  | .unboundLocal => "UnboundLocalError"
  | .runtime => "RuntimeError"
  | .recursion => "RecursionError"
  | .notImplemented => "NotImplementedError"
  | .stopIteration => "StopIteration"
  | .type => "TypeError"
  | .value => "ValueError"
  | .unicode => "UnicodeError"

def Kind.ofText? (t : Text) : Option Kind :=
  Kind.all.find? fun k => k.text == t

def Kind.lineage : Kind → List Kind
  | .base => [.base]
  | .exception => [.exception, .base]
  | .arithmetic => [.arithmetic, .exception, .base]
  | .zeroDivision => [.zeroDivision, .arithmetic, .exception, .base]
  | .overflow => [.overflow, .arithmetic, .exception, .base]
  | .lookup => [.lookup, .exception, .base]
  | .index => [.index, .lookup, .exception, .base]
  | .key => [.key, .lookup, .exception, .base]
  | .name => [.name, .exception, .base]
  | .unboundLocal => [.unboundLocal, .name, .exception, .base]
  | .runtime => [.runtime, .exception, .base]
  | .recursion => [.recursion, .runtime, .exception, .base]
  | .notImplemented => [.notImplemented, .runtime, .exception, .base]
  | .value => [.value, .exception, .base]
  | .unicode => [.unicode, .value, .exception, .base]
  | k => [k, .exception, .base]

def Kind.isA (k wide : Kind) : Bool :=
  k.lineage.contains wide

end Pseudocode.Run
