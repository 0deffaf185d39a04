import HeapScript.CommandLine.Disk
import HeapScript.Main
import HeapScript.Tree.Outline
import HeapScript.Proofs.Library.Appending
import HeapScript.Proofs.Library.TableInvariant
import HeapScript.Proofs.Execution.Budgets
import HeapScript.Proofs.Tree.Aliases
import HeapScript.Proofs.Compile.Specialization
import HeapScript.Proofs.Library.DenseStores
import HeapScript.Proofs.Compile.PlaceStores
import HeapScript.Proofs.Compile.Temporaries
import HeapScript.Proofs.Library.Numerals
import HeapScript.Proofs.Text.EditScripts
import HeapScript.Proofs.Analysis.SettledTypes
import HeapScript.Proofs.Machine.Signatures
import HeapScript.Proofs.Compile.ClassMembers
