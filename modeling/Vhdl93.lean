import Vhdl93.Config.File
import Vhdl93.Design.File
import Vhdl93.Layout.Step
import Vhdl93.Proofs.Grammar.Derivation
import Vhdl93.Proofs.Grammar.Unambiguous
import Vhdl93.Proofs.Inline.Checks
import Vhdl93.Proofs.Grammar.Printed
import Vhdl93.Proofs.Grammar.Bounds
import Vhdl93.Proofs.Lexer.Basic
import Vhdl93.Proofs.Lexer.Reading
import Vhdl93.Proofs.Lexer.Tokens
import Vhdl93.Proofs.Lexer.Inline
import Vhdl93.Proofs.Lexer.Standard
import Vhdl93.Proofs.Layout.Outline
import Vhdl93.Proofs.Inline.Text
import Vhdl93.Proofs.Layout.Respacing
import Vhdl93.Proofs.Layout.Spelling
import Vhdl93.Proofs.Layout.Writing
import Vhdl93.Proofs.Layout.Place
import Vhdl93.Proofs.Layout.Width
import Vhdl93.Proofs.Lexer.Cutting
import Vhdl93.Proofs.Design.Skeleton
import Vhdl93.Proofs.Design.Trees
import Vhdl93.Proofs.Design.Lexemes
import Vhdl93.Proofs.Design.Decoding
import Vhdl93.Proofs.Design.Declarations
import Vhdl93.Proofs.Design.Units
import Vhdl93.Proofs.Lexer.Line
import Vhdl93.Proofs.Design.Written
import Vhdl93.Proofs.Design.Rendered
import Vhdl93.Proofs.Ident.Language
import Vhdl93.Proofs.Ident.Rendering
import Vhdl93.Proofs.Inline.Desugar
import Vhdl93.Proofs.Grammar.Forms
import Vhdl93.Proofs.Grammar.Parentheses
import Vhdl93.Proofs.Ident.Suffixes
import Vhdl93.Proofs.Layout.Unitwise
import Vhdl93.Proofs.Inline.Rows
import Vhdl93.Proofs.Layout.Rows
import Vhdl93.Proofs.Layout.Lines
import Vhdl93.Proofs.Layout.Widening
import Vhdl93.Proofs.Binary64.Grid
import Vhdl93.Proofs.Binary64.Rounding
import Vhdl93.Proofs.Binary64.Text
import Vhdl93.Proofs.Design.Files
import Vhdl93.Proofs.Text.Bytes
import Vhdl93.Proofs.Toml.Tables
import Vhdl93.Proofs.Config.Settings
import Vhdl93.Proofs.Toml.Items
import Vhdl93.Proofs.Toml.Written
import Vhdl93.Proofs.Config.Texts
import Vhdl93.Proofs.Design.Equality
import Vhdl93.Proofs.Design.Families
import Vhdl93.Proofs.Layout.Columns
