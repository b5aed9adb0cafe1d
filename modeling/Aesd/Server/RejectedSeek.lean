import Aesd.Server.Service

/-!
# A seek command that is refused

The session gives `file_mutex` back and ends the process. Until then nobody can
touch the device, and neither of its last two steps does.
-/

namespace Aesd
open Library

variable {s₀ s s' : Server Driver} {w : Driver} {c : Client} {t u : Nat} {act : Act CallEnv} {chunk : Chunk}
  {env : Pass CallEnv}

/-- The session after a refused command. -/
def Client.refused (c : Client) (chunk : Chunk) : Client :=
  ((c.receive chunk.bytes).did .opened).did (.command (scanSeekto ((recvInto c.buffer chunk.bytes).drop 19)))

def seekLine : Chunk := ⟨seekPrefix ++ [53, 44, 48, newline], by decide, by decide⟩

/-- One session has stored a line, another has part of one pending. -/
def storing : List (Nat × Act CallEnv) :=
  let data (bytes : Chunk) (at' : Nat) : Act CallEnv :=
    .client (.recv (.data bytes) { call := { kmallocAt := some at' }, seek := {} })
  [(1, .client .go), (1, data ⟨[97, newline], by decide, by decide⟩ 1), (1, .client (.read {} 0)),
    (1, .client (.read {} 0)), (1, .client .go), (0, .client .go), (0, data ⟨[98], by decide, by decide⟩ 2)]

def stored : Server Driver := ((server device).run (service fun _ => []) storing).getD (service fun _ => [])

def request : Nat × Act CallEnv := (0, .client (.recv (.data seekLine) { call := {}, seek := {} }))

end Aesd
