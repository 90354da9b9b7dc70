import WhiteRabbit.RecordAccesses

/-!
# Performing accesses on a socket

The bus side of a socket is a list of virtual devices, each with optional callbacks; the SDB
tables answer reads below `0x4000`. What the decoder needs of them is collected in `Glue`.
Every bus access shifts one bit into the error register of the session.
-/

namespace WhiteRabbit.Etherbone
open BigEndian

/-- A handler with its address range. The callbacks return whether they failed. -/
structure Handler (σ : Type) where
  addrFirst : ℕ
  addrLast : ℕ
  littleEndian : Bool
  read : Option (σ → ℕ → ℕ → σ × ℕ × Bool)
  write : Option (σ → ℕ → ℕ → ℕ → σ × Bool)

/-- The two bus functions and the config write of a socket with state `σ`. Bus functions
return whether an error is shifted in. -/
structure Glue (σ : Type) where
  read : σ → ℕ → ℕ → ℕ → σ × ℕ × Bool
  write : σ → ℕ → ℕ → ℕ → ℕ → σ × Bool
  writeConfig : σ → ℕ → ℕ → ℕ → σ

section Socket

variable {σ : Type}

/-- The first handler whose range holds the address. -/
def findHandler (handlers : List (Handler σ)) (addrB : ℕ) : Option (Handler σ) :=
  handlers.find? fun h => decide (h.addrFirst ≤ addrB ∧ addrB ≤ h.addrLast)

def ebSocketWrite (handlers : List (Handler σ)) (s : σ) (widths addrB addrL value : ℕ) : σ × Bool :=
  -- the SDB is read only
  if addrB < 0x4000 then (s, true)
  else
    match findHandler handlers addrB with
    | none => (s, true)
    | some h =>
      match h.write with
      | none => (s, true)
      | some write => write s (if h.littleEndian then addrL else addrB) widths value

def ebSocketRead (handlers : List (Handler σ)) (sdb : σ → ℕ → ℕ → ℕ) (s : σ)
    (widths addrB addrL : ℕ) : σ × ℕ × Bool :=
  if addrB < 0x4000 then (s, sdb s widths addrB, false)
  else
    match findHandler handlers addrB with
    | none => (s, 0, true)
    | some h =>
      match h.read with
      | none => (s, 0, true)
      | some read => read s (if h.littleEndian then addrL else addrB) widths

/-- The glue of a socket with the given devices, SDB tables and response queue. -/
def socketGlue (handlers : List (Handler σ)) (sdb : σ → ℕ → ℕ → ℕ) (writeConfig : σ → ℕ → ℕ → ℕ → σ) :
    Glue σ where
  read := ebSocketRead handlers sdb
  write := ebSocketWrite handlers
  writeConfig := writeConfig

end Socket

/-- The bytes of the error register, most significant first, then zeros. -/
def errorBytes (error : ℕ) : Bytes := encode 8 error ++ List.replicate 8 0

/-- Only the error register can be read from config space. -/
def ebSocketReadConfig (widths addr error : ℕ) : ℕ :=
  if 8 ≤ addr then 0 else decode (((errorBytes error).drop addr).take (widths &&& ebDataX))

/-- `*error = (*error << 1) | fail` on 64 bits. -/
def shiftError (error : ℕ) (fail : Bool) : ℕ := (error <<< 1 ||| fail.toNat) % 2 ^ 64

/-- A call that reached the socket, with its arguments. -/
inductive Event where
  | write (widths addrB addrL value : ℕ)
  | read (widths addrB addrL : ℕ)
  | writeConfig (widths addr value : ℕ)
  | readConfig (widths addr error : ℕ)
  deriving DecidableEq

/-- The socket, the error register of the session, and the calls made so far. -/
structure Bus (σ : Type) where
  sock : σ
  error : ℕ
  trace : List Event

section Perform

variable {σ : Type} (g : Glue σ)

/-- One turn of a write or read loop. The value is what a read returns. -/
def perform (bus : Bus σ) : Access → Bus σ × ℕ
  | .write widths addrB addrL value =>
    let (sock, fail) := g.write bus.sock widths addrB addrL value
    (⟨sock, shiftError bus.error fail, bus.trace ++ [.write widths addrB addrL value]⟩, 0)
  | .read widths addrB addrL =>
    let (sock, out, fail) := g.read bus.sock widths addrB addrL
    (⟨sock, shiftError bus.error fail, bus.trace ++ [.read widths addrB addrL]⟩, out)
  | .writeConfig widths addr value =>
    (⟨g.writeConfig bus.sock widths addr value, bus.error,
      bus.trace ++ [.writeConfig widths addr value]⟩, 0)
  | .readConfig widths addr =>
    (⟨bus.sock, bus.error, bus.trace ++ [.readConfig widths addr bus.error]⟩,
      ebSocketReadConfig widths addr bus.error)
  | .badWrite => (⟨bus.sock, shiftError bus.error true, bus.trace⟩, 0)
  | .badRead => (⟨bus.sock, shiftError bus.error true, bus.trace⟩, 0)
  | .badWriteConfig => (bus, 0)
  | .badReadConfig => (bus, 0)

/-- A list of accesses, with the values they return. -/
def performAll : Bus σ → List Access → Bus σ × List ℕ
  | bus, [] => (bus, [])
  | bus, a :: as =>
    let (bus, value) := perform g bus a
    let (bus, values) := performAll bus as
    (bus, value :: values)

@[simp] theorem performAll_nil (bus : Bus σ) : performAll g bus [] = (bus, []) := rfl

theorem performAll_cons (bus : Bus σ) (a : Access) (as : List Access) :
    performAll g bus (a :: as) = ((performAll g (perform g bus a).1 as).1,
      (perform g bus a).2 :: (performAll g (perform g bus a).1 as).2) := rfl

theorem performAll_append (bus : Bus σ) (as bs : List Access) :
    performAll g bus (as ++ bs) = ((performAll g (performAll g bus as).1 bs).1,
      (performAll g bus as).2 ++ (performAll g (performAll g bus as).1 bs).2) := by
  induction as generalizing bus with
  | nil => rfl
  | cons a as ih => simp [performAll_cons, ih]

@[simp] theorem length_performAll (bus : Bus σ) (as : List Access) :
    (performAll g bus as).2.length = as.length := by
  induction as generalizing bus with
  | nil => rfl
  | cons a as ih => simp [performAll_cons, ih]

end Perform

end WhiteRabbit.Etherbone
