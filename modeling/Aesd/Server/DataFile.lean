import Aesd.Driver.Device

/-!
# The data file

The system calls the server makes on `DATA_FILE`, over a state `W` of the file
and what the kernel may answer, `E`. There are two builds: the character device
and a regular file.
-/

namespace Aesd

/-- `DATA_FILE`. Positions are those of the descriptor; a call that fails returns -1. -/
structure DataFile (W E : Type) where
  creat : W → W
  write : E → List UInt8 → W → Int → Int × W × Int
  ioctl : E → Seekto → W → Int → Int × Int
  lseek : E → W → Int → Int × Int
  read : E → W → Int → ReadResult
  -- `write` through a descriptor opened with `O_APPEND`.
  append : E → List UInt8 → W → W
  unlink : W → W
  /-- A read may always come back with nothing. -/
  readEnds : ∀ w fpos, ∃ env, (read env w fpos).retval ≤ 0

def sysret (retval : Int) : Int := if retval < 0 then -1 else retval

def device : DataFile Driver CallEnv where
  creat s := s
  write env buf s fpos :=
    let res := aesdWrite env buf s fpos
    (sysret res.retval, res.state, if res.retval < 0 then fpos else res.fpos)
  ioctl env seekto s fpos :=
    let res := aesdIoctl env iocSeekto seekto s fpos
    (sysret res.1, res.2)
  lseek env s fpos :=
    let res := aesdLlseek env 0 seekSet s fpos
    (sysret res.1, res.2)
  read env s fpos :=
    let res := aesdRead env 1024 s fpos
    { res with retval := sysret res.retval }
  append env buf s := (aesdWrite env buf s 0).state
  unlink s := s
  readEnds s fpos := ⟨{ interrupted := true }, by simp [aesdRead, sysret, erestartsys]⟩

structure FileEnv where
  fails : Bool := false
  short : Nat := 0
  deriving DecidableEq

/-- Bytes written at an offset; a gap reads as zeros. -/
def writeAt (content : List UInt8) (offset : Nat) (bytes : List UInt8) : List UInt8 :=
  content.takeD offset 0 ++ bytes ++ content.drop (offset + bytes.length)

/-- `/var/tmp/aesdsocketdata`: its bytes, `none` when there is no file. -/
def regularFile : DataFile (Option (List UInt8)) FileEnv where
  creat content := some (content.getD [])
  write env buf content fpos :=
    if env.fails then (-1, content, fpos)
    else
      let bytes := buf.take (buf.length - env.short)
      (bytes.length, some (writeAt (content.getD []) fpos.toNat bytes), fpos + bytes.length)
  ioctl _ _ _ fpos := (-1, fpos)
  lseek env _ fpos := if env.fails then (-1, fpos) else (0, 0)
  read env content fpos :=
    if env.fails then ⟨-1, [], fpos⟩
    else
      let data := ((content.getD []).drop fpos.toNat).take 1024
      ⟨data.length, data, fpos + data.length⟩
  append env buf content :=
    if env.fails then some (content.getD []) else some (content.getD [] ++ buf.take (buf.length - env.short))
  unlink _ := none
  readEnds content fpos := ⟨{ fails := true }, by simp⟩

end Aesd
