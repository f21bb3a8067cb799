import CajaSegura.Codec.Base64

/-!
# Errors

What the application and the libraries it calls throw, and the texts in which an error appears in
the message of another.

## Main definitions

* `DartError`, `DartError.toText`
* `DartError.isException`: whether `e is Exception`
-/

namespace CajaSegura

open Codec

inductive DartError
  | argument (message : Text)
  | assertion (message : Text)
  | authentication
  | cast (source target : Text)
  | exception (message : Text)
  | fileSystem (message path : Text)
  | format (message : Text)
  | nullCheck
  | platform (code : Text) (message : Option Text)
  | range (message : Text)
  | state (message : Text)
  | unmounted
  | unsupported (message : Text)

namespace DartError

/-- `toString`. -/
def toText : DartError → Text
  | argument m => "Invalid argument(s): ".toList ++ m
  | assertion m => "Assertion failed: \"".toList ++ m ++ ['"']
  | authentication => "SecretBoxAuthenticationError".toList
  | cast s t => "type '".toList ++ s ++ "' is not a subtype of type '".toList ++ t ++
      "' in type cast".toList
  | exception m => "Exception: ".toList ++ m
  | fileSystem m p => "FileSystemException: ".toList ++ m ++ ", path = '".toList ++ p ++ ['\'']
  | format m => "FormatException: ".toList ++ m
  | nullCheck => "Null check operator used on a null value".toList
  | platform c m => "PlatformException(".toList ++ c ++ ", ".toList ++ m.getD "null".toList ++ [')']
  | range m => "RangeError: ".toList ++ m
  | state m => "Bad state: ".toList ++ m
  | unmounted => "setState() called after dispose()".toList
  | unsupported m => "Unsupported operation: ".toList ++ m

/-- Whether `e is Exception`; the others are errors of the program. -/
def isException : DartError → Bool
  | exception _ | fileSystem .. | format _ | platform .. => true
  | _ => false

end DartError

theorem ok_of_toOption {α : Type} {r : Except DartError α} {a : α} (h : r.toOption = some a) :
    r = .ok a := by
  cases r with
  | ok b => exact congrArg Except.ok (Option.some.inj h)
  | error e => cases h

/-- A sequence that does not throw. -/
theorem bind_eq_ok {α β : Type} {x : Except DartError α} {f : α → Except DartError β} {b : β}
    (h : x >>= f = .ok b) : ∃ a, x = .ok a ∧ f a = .ok b := by
  cases x with
  | error e => cases h
  | ok a => exact ⟨a, rfl, h⟩

end CajaSegura
