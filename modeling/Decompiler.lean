import Decompiler.Main
import Decompiler.Proofs.ArgumentPlaces
import Decompiler.Proofs.BlockShape
import Decompiler.Proofs.Dispatch
import Decompiler.Proofs.DoubleConstants
import Decompiler.Proofs.EntryFrames
import Decompiler.Proofs.ExpressionValue
import Decompiler.Proofs.Fallthrough
import Decompiler.Proofs.FunctionMemory
import Decompiler.Proofs.InstructionText
import Decompiler.Proofs.JoinVariables
import Decompiler.Proofs.OperandArithmetic
import Decompiler.Proofs.PlainBranches
import Decompiler.Proofs.PowerDivisions
import Decompiler.Proofs.ReturnMarks
import Decompiler.Proofs.StringLiterals
import Decompiler.Proofs.SymbolOffsets
import Decompiler.Proofs.UnalignedLoads
import Decompiler.Proofs.UnifyOrder
