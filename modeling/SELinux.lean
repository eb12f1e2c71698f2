import SELinux.Lib.Chain
import SELinux.Lib.Bits
import SELinux.Lib.Rpn
import SELinux.Lib.Run
import SELinux.Lib.Demand
import SELinux.Db.Ebitmap
import SELinux.Db.Avtab
import SELinux.Db.Types
import SELinux.Db.Scope
import SELinux.Db.Conditional
import SELinux.Db.Context
import SELinux.Check.Assertion
import SELinux.Check.Neverallow
import SELinux.Check.NeverallowXperms
import SELinux.Check.Hierarchy
import SELinux.Expand.Avrules
import SELinux.Expand.Conditionals
import SELinux.Expand.Module
import SELinux.Services.ComputeAv
import SELinux.Services.Sidtab
import SELinux.Services.Load
import SELinux.Services.Sids
import SELinux.Cil.Expr
import SELinux.Cil.CondExpr
import SELinux.Cil.Ast
import SELinux.Cil.Binary
import SELinux.Cil.Classes
import SELinux.Cil.Attributes
import SELinux.Expand.Avtab
import SELinux.Lib.Wire
import SELinux.File.Avtab
import SELinux.File.AvtabRoundTrip
import SELinux.File.Constraint
import SELinux.File.Symbols
import SELinux.File.Conditional
import SELinux.File.Decls
import SELinux.File.Index
import SELinux.File.Policydb
import SELinux.Db.Bitset
import SELinux.Db.MlsText
import SELinux.Manage.Nodes
import SELinux.Manage.Users
import SELinux.Services.SidRuns
import SELinux.Lib.Sweep
import SELinux.Link.Enable
import SELinux.Label.FileContexts
import SELinux.File.ReadSafety
import SELinux.Db.Positions
import SELinux.File.Levels
import SELinux.Db.MlsRoundTrip
import SELinux.Db.CondEqual
import SELinux.Expand.Rules
import SELinux.Userland.Context
import SELinux.Expand.Accumulate
import SELinux.Expand.TypeRules
import SELinux.Lib.Exit
import SELinux.Label.Compiled
import SELinux.Label.Loaded
import SELinux.Userland.Avc
import SELinux.Userland.AvcCache
import SELinux.Userland.AvcRuns
import SELinux.Db.TextLength
import SELinux.Db.MlsForm
import SELinux.File.Ranges
import SELinux.Services.ConstraintStack
import SELinux.Cil.ClassPerms
import SELinux.Cil.TypeRules
import SELinux.Cil.Ordered
import SELinux.Cil.Compare
import SELinux.Checkpolicy.IoctlDrivers
import SELinux.Cil.Ioctl
import SELinux.Cil.LevelRanges
import SELinux.Cil.Reset
import SELinux.Db.AvtabRuns
import SELinux.Expand.Tunables
import SELinux.File.Slots
import SELinux.Expand.RoleSets
import SELinux.Expand.AvtabTypes
import SELinux.Expand.Transitions
import SELinux.Cil.ConstraintExpr
import SELinux.Manage.LocalPorts
import SELinux.Manage.UserRoles
import SELinux.File.OldItem
import SELinux.Services.Transition
import SELinux.Db.Tokenize
import SELinux.Check.AvString
import SELinux.Mcstrans.Translate
import SELinux.Label.Specificity
import SELinux.Services.StringToClass
import SELinux.Services.Switching
import SELinux.Manage.Iterate
import SELinux.Manage.ActiveModules
import SELinux.Userland.AvcNodes
