import Calculator.Main
import Calculator.Proofs.Complexes.Gaussian
import Calculator.Proofs.Complexes.Products
import Calculator.Proofs.Complexes.Texts
import Calculator.Proofs.Display
import Calculator.Proofs.Display.Styles
import Calculator.Proofs.Grammar.Arguments
import Calculator.Proofs.Grammar.Driving
import Calculator.Proofs.Grammar.Offence
import Calculator.Proofs.Integers
import Calculator.Proofs.Layout
import Calculator.Proofs.Numerals.Longest
import Calculator.Proofs.Powers
import Calculator.Proofs.Reflection
import Calculator.Proofs.Scripts.Output
import Calculator.Proofs.Sessions.Memory
import Calculator.Proofs.Strictness
import Calculator.Proofs.Tangent
