import Sagittarius.Asn1.ObjectIdentifier
import Sagittarius.Bignum.Expt
import Sagittarius.Bignum.ThreeWay
import Sagittarius.Bignum.ToDouble
import Sagittarius.CharSet.Algebra
import Sagittarius.Clos.Combination
import Sagittarius.Compiler.LibraryInlining
import Sagittarius.Ec.ScalarMultiple
import Sagittarius.HashTable.Tables
import Sagittarius.Hpack.Eviction
import Sagittarius.Import.Resolve
import Sagittarius.Json.Convert
import Sagittarius.Number.BitSet
import Sagittarius.Number.ExactSqrt
import Sagittarius.Number.ModInverse
import Sagittarius.Number.ModTwoPower
import Sagittarius.Number.Words
import Sagittarius.Regex.Optimize
import Sagittarius.Regex.Position
import Sagittarius.Regex.Stack
import Sagittarius.Regex.Termination
import Sagittarius.Text.CombiningMarks
import Sagittarius.Text.ReadUntil
import Sagittarius.Text.Requests
import Sagittarius.Text.Writers
import Sagittarius.TreeMap.Balance
