/-!
# Targets

The three instruction sets and what code generation has to know of each besides its instructions:
the register file and the calling convention.
-/

namespace SsaBackend

abbrev Register := String

inductive Arch
  | amd64
  | arm64
  | riscv64
  deriving DecidableEq

namespace Arch

def all : List Arch := [amd64, arm64, riscv64]

def name : Arch → String
  | amd64 => "amd64"
  | arm64 => "arm64"
  | riscv64 => "riscv64"

def aliases : Arch → List String
  | amd64 => ["x86_64", "x86-64"]
  | arm64 => ["aarch64"]
  | riscv64 => ["rv64"]

def ofName? (s : String) : Option Arch := all.find? fun a => (a.name :: a.aliases).contains s

end Arch

structure Target where
  arch : Arch
  argRegs : List Register
  retReg : Register
  calleeSaved : List Register
  callerSaved : List Register
  /-- The registers for values, in order of preference. All are callee-saved, so no call touches a
  placed value. -/
  allocatable : List Register
  scratch : List Register
  cycleScratch : Register
  framePointer : Register
  linkRegister : Option Register
  stackAlign : Nat
  wordSize : Nat
  maxStackArgs : Nat
  /-- Whether stack arguments have an area of their own at the bottom of the frame. Without one they
  are pushed around the call. -/
  reservesOutgoing : Bool

namespace Target

def isCalleeSaved (t : Target) (r : Register) : Bool := t.calleeSaved.contains r

def maxCallArgs (t : Target) : Nat := t.argRegs.length + t.maxStackArgs

end Target

/-- The System V convention. Names carry no percent sign; it belongs to the text of operands. -/
def Amd64.target : Target where
  arch := .amd64
  argRegs := ["rdi", "rsi", "rdx", "rcx", "r8", "r9"]
  retReg := "rax"
  calleeSaved := ["rbx", "r12", "r13", "r14", "r15"]
  callerSaved := ["rax", "rcx", "rdx", "rsi", "rdi", "r8", "r9", "r10", "r11"]
  allocatable := ["rbx", "r12", "r13", "r14", "r15"]
  scratch := ["rax", "rdx", "r10", "r11"]
  cycleScratch := "r10"
  framePointer := "rbp"
  linkRegister := none
  stackAlign := 16
  wordSize := 8
  maxStackArgs := 16
  reservesOutgoing := false

/-- The procedure call standard of the 64-bit Arm architecture. `x18` belongs to the platform and is
never touched. -/
def Arm64.target : Target where
  arch := .arm64
  argRegs := ["x0", "x1", "x2", "x3", "x4", "x5", "x6", "x7"]
  retReg := "x0"
  calleeSaved := ["x19", "x20", "x21", "x22", "x23", "x24", "x25", "x26", "x27", "x28"]
  callerSaved := ["x0", "x1", "x2", "x3", "x4", "x5", "x6", "x7", "x8", "x9", "x10", "x11", "x12",
    "x13", "x14", "x15", "x16", "x17"]
  allocatable := ["x19", "x20", "x21", "x22", "x23", "x24", "x25", "x26", "x27", "x28"]
  scratch := ["x9", "x10", "x11", "x15", "x16", "x17"]
  cycleScratch := "x15"
  framePointer := "x29"
  linkRegister := some "x30"
  stackAlign := 16
  wordSize := 8
  maxStackArgs := 16
  reservesOutgoing := true

/-- The integer convention of 64-bit RISC-V. `s0` is the frame pointer. -/
def Riscv64.target : Target where
  arch := .riscv64
  argRegs := ["a0", "a1", "a2", "a3", "a4", "a5", "a6", "a7"]
  retReg := "a0"
  calleeSaved := ["s1", "s2", "s3", "s4", "s5", "s6", "s7", "s8", "s9", "s10", "s11"]
  callerSaved := ["t0", "t1", "t2", "t3", "t4", "t5", "t6", "a0", "a1", "a2", "a3", "a4", "a5",
    "a6", "a7"]
  allocatable := ["s1", "s2", "s3", "s4", "s5", "s6", "s7", "s8", "s9", "s10", "s11"]
  scratch := ["t0", "t1", "t2", "t3", "t6"]
  cycleScratch := "t6"
  framePointer := "s0"
  linkRegister := some "ra"
  stackAlign := 16
  wordSize := 8
  maxStackArgs := 16
  reservesOutgoing := true

def Arch.target : Arch → Target
  | .amd64 => Amd64.target
  | .arm64 => Arm64.target
  | .riscv64 => Riscv64.target

end SsaBackend
